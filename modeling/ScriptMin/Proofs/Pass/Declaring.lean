import ScriptMin.Proofs.Pass.Parts

/-!
The names that a body declares when declarations are combined. A body declares the names of its lists
of declarations, and those of functions, clauses and other declarations in it, which stay where they
are. Main statement: every body declares the names that it declared before.
-/

namespace ScriptMin

open Store Edit Declarations

variable {s s' : Store} {b c d l p x y z F root : NodeId} {L : Prop} {D A R : NodeId → Prop}
  {name : String}

/-! ### Bodies -/

/-- A body of a script or function. -/
structure Store.IsBody (s : Store) (b : NodeId) : Prop where
  kind_eq : s.kind b = .script
  place : b = s.root ∨ ∃ F, s.kind F = .function ∧ s.child? F .body = some b

def Store.bodies (s : Store) : List NodeId :=
  s.root :: (s.descendants s.root).filterMap fun id =>
    if s.kind id = .function then s.child? id .body else none

namespace Store.IsBody

/-- What is inside a body belongs to the owner of the body. -/
theorem exists_owner (hb : s.IsBody b) :
    ∃ F, s.Owner F ∧ (∀ x, s.Inside b x → s.Inside F x) ∧
      (b = F ∨ s.kind F = .function ∧ s.child? F .body = some b) := by
  rcases hb.place with rfl | ⟨F, hF, hchild⟩
  · exact ⟨_, .inl rfl, fun _ hx => hx, .inl rfl⟩
  · refine ⟨F, .inr hF, fun x hx => ?_, .inr ⟨hF, hchild⟩⟩
    exact (Inside.child (mem_of_child? hchild)).trans (by simp [hb.kind_eq]) hx

/-- Bodies do not overlap. -/
theorem eq_of_inside (hb : s.IsBody b) (hy : s.IsBody y) (hs : s.Forest) (hxb : s.Inside b x)
    (hxy : s.Inside y x) : b = y := by
  obtain ⟨F, hF, hinside, hplace⟩ := hb.exists_owner
  obtain ⟨G, hG, hinside', hplace'⟩ := hy.exists_owner
  obtain rfl := Inside.owner_eq hs hF hG (hinside x hxb) (hinside' x hxy)
  rcases hplace with rfl | ⟨hkind, hchild⟩
  · rcases hplace' with rfl | ⟨hkind', -⟩
    · rfl
    · rw [hb.kind_eq] at hkind'
      cases hkind'
  · rcases hplace' with rfl | ⟨-, hchild'⟩
    · rw [hy.kind_eq] at hkind
      cases hkind
    · exact Option.some_inj.mp (hchild.symm.trans hchild')

/-- A body is inside no other one. -/
theorem not_inside (hb : s.IsBody b) (hy : s.kind y = .script) (hs : s.Forest) : ¬ s.Inside y b := by
  intro hinside
  obtain ⟨p, hp, hcase⟩ := hinside.parent hs.toLinked
  rcases hb.place with rfl | ⟨F, hF, hchild⟩
  · rw [hs.root_parent] at hp
    cases hp
  · rw [hs.parent?_of_mem (mem_of_child? hchild), Option.some_inj] at hp
    rcases hcase with rfl | ⟨hkind, -⟩
    · rw [hp, hy] at hF
      cases hF
    · exact hkind (hp ▸ hF)

/-- An edit of a body touches no other one. -/
theorem not_touchable (hb : s.IsBody b) (hy : s.IsBody y) (hs : s.Forest) (hne : b ≠ y)
    (hz : z = y ∨ s.Inside y z) : ¬ s.Touchable b z := by
  rintro ⟨rfl | hinside, -, -⟩
  · rcases hz with heq | hz
    · exact hne heq
    · exact hb.not_inside hy.kind_eq hs hz
  · rcases hz with rfl | hz
    · exact hy.not_inside hb.kind_eq hs hinside
    · exact hne (hb.eq_of_inside hy hs hinside hz)

theorem lt (hb : s.IsBody b) (hs : s.Linked) : b < s.size := by
  rcases hb.place with rfl | ⟨F, -, hchild⟩
  · exact hs.root_lt
  · exact hs.child_lt (mem_of_child? hchild)

/-- Bodies stay bodies when declarations are combined. -/
theorem later (hy : s.IsBody y) (hs : s.Linked) (h : Combines b R s s') : s'.IsBody y where
  kind_eq := (h.kind_eq (hy.lt hs)).trans hy.kind_eq
  place := by
    rw [h.touches.root_eq]
    refine hy.place.imp_right fun ⟨F, hF, hchild⟩ => ?_
    have hlt : F < s.size := lt_of_kind (by simp [hF])
    refine ⟨F, (h.kind_eq hlt).trans hF, ?_⟩
    rw [h.touches.child?_eq hlt fun hD => hD.not_function hF]
    exact hchild

end Store.IsBody

theorem isBody_of_mem (h : s.Ordered) (hb : b ∈ s.bodies) : s.IsBody b := by
  refine ⟨(h.kind_body hb).1, ?_⟩
  rcases List.mem_cons.mp hb with rfl | hb
  · exact .inl rfl
  · obtain ⟨F, -, hF⟩ := List.mem_filterMap.mp hb
    split at hF
    case isTrue hfunction => exact .inr ⟨F, hfunction, hF⟩
    case isFalse => cases hF

/-! ### Bodies that are not touched -/

namespace Store

section

variable (h : Touches L D A s s') (hs : s.Forest) (hs' : s'.Forest) (hlt : y < s.size)
  (hoff : ∀ z, z = y ∨ s.Inside y z → ¬ D z)
include h hs hs' hlt hoff

theorem Touches.bodyNodes_eq : s'.bodyNodes y = s.bodyNodes y := by
  induction y using hs.descend with
  | step y ih =>
      rw [Store.bodyNodes_eq, Store.bodyNodes_eq, h.row y hlt (hoff y (.inl rfl))]
      refine List.flatMap_congr fun c hc => ?_
      have hltc := hs.child_lt hc
      rw [hs.inner_eq, hs'.inner_eq, h.kind_eq hltc]
      by_cases hkind : s.kind c = .function
      · rw [if_pos hkind, if_pos hkind]
      · rw [if_neg hkind, if_neg hkind, ih c hc hltc fun z hz => hoff z (.inr ?_)]
        rcases hz with rfl | hz
        · exact .child hc
        · exact (Inside.child hc).trans hkind hz

theorem Touches.lists_eq : s'.lists y = s.lists y := by
  rw [lists, lists, h.bodyNodes_eq hs hs' hlt hoff]
  refine List.filter_congr fun x hx => ?_
  rw [h.kind_eq ((hs.mem_bodyNodes.mp hx).lt hs.toLinked)]

omit hs' hlt in
theorem Touches.role_of_inside (hx : s.Inside y x) : s'.role? x = s.role? x := by
  obtain ⟨p, hp, hplace⟩ := hx.parent hs.toLinked
  refine h.role p (hs.parent_lt hp) (hoff p (hplace.imp_right And.right)) x ?_
  exact (hs.linked p x).mpr hp

end

end Store

/-! ### Names of nodes -/

namespace Store

/-- A pattern binds the names that are collected from it. -/
theorem IsPattern.mem_bindings (h : s.IsPattern p) (hs : s.Forest) :
    name ∈ (s.bindings p).map s.text ↔ name ∈ (s.view p).boundNames := by
  induction h with
  | leaf hkind =>
      rcases hkind with hkind | hkind
      · rw [bindings_name hkind, boundNames_name hs hkind]
        rfl
      · rw [bindings_hole hkind, boundNames_view hs, hkind]
        rfl
  | array hkind _ ih =>
      rw [hs.bindings_array hkind, mem_boundNames_array hs hkind, List.map_flatMap, List.mem_flatMap]
      exact exists_congr fun c => and_congr_right (ih c)
  | object hkind _ _ ih =>
      rw [hs.bindings_object hkind, mem_boundNames_object hs hkind, List.map_flatMap,
        List.mem_flatMap]
      refine exists_congr fun property => and_congr_right fun hproperty => ?_
      rw [List.map_flatMap, List.mem_flatMap]
      simp only [Option.mem_toList]
      exact exists_congr fun value => and_congr_right fun hvalue => ih property hproperty value hvalue

/-- A declaration in a list declares its pattern or its text. -/
theorem Supplied.mem_ownNames_of_mem (h : s.Supplied) (hkind : s.kind l = .varList)
    (hlink : s.parent? l = some p) (hd : d ∈ s.children l) :
    name ∈ Tree.ownNames (s.isClause d) (s.view d) ↔ name ∈ namesOf s d := by
  have hf := h.ordered.toForest
  have hnamed := (h.ample.filled hlink).named hkind d hd
  have hkindd := hnamed.kind_eq
  rw [mem_ownNames_view hf, hkindd]
  simp only [reduceCtorEq, false_and, or_false, false_or, true_and]
  rw [namesOf]
  cases hchild : s.child? d .names with
  | none =>
      -- What is no pattern is an initializer, so that the declaration has a text.
      have htext : (s.text? d).isSome := by
        refine hnamed.title.resolve_right ?_
        rintro ⟨c, hc, hrole⟩
        refine (h.sound.hosts_declaration hkindd hc).elim (fun hnames => ?_) hrole
        exact List.find?_eq_none.mp hchild c hc (beq_iff_eq.mpr hnames.1)
      simp [htext, eq_comm]
  | some pattern =>
      have hmem := mem_of_child? hchild
      have hrole := role?_of_child? hchild
      have hnone : s.text? d = none := by
        rcases h.sound.hosts_declaration hkindd hmem with ⟨-, hnone⟩ | hvalue
        · exact hnone
        · rw [hrole] at hvalue
          cases hvalue
      have hpattern : s.IsPattern pattern := by
        refine (h.sound.formed d).patterns pattern hmem ?_
        rw [Head.binds, show (s.head d).kind = .declaration from hkindd]
        exact beq_iff_eq.mpr hrole
      simp only [hnone, Option.isSome_none, Bool.false_eq_true, false_and, false_or,
        Option.some.injEq, exists_eq_left']
      rw [← mem_boundNames hf, hpattern.mem_bindings hf]

/-- Only statements declare names of their own. -/
theorem isExpression_of_mem_ownNames (hs : s.Forest)
    (hx : name ∈ Tree.ownNames (s.isClause d) (s.view d)) :
    (s.head d).isExpression = false ∧ (s.kind d).isPlaced = false ∧ s.kind d ≠ .varList := by
  have hhead : (s.head d).kind = s.kind d := rfl
  rcases (mem_ownNames_view hs).mp hx with ⟨hkind, hdeclared, -⟩ | ⟨hkind, -⟩ | ⟨hkind, -⟩ |
    ⟨hkind, -⟩
  · refine ⟨?_, by rw [hkind]; rfl, by simp [hkind]⟩
    rw [Tree.isDeclaredFunction, Bool.or_eq_true, beq_iff_eq, beq_iff_eq] at hdeclared
    rcases hdeclared with hform | hform <;>
      simp [Head.isExpression, hhead, hkind, hform, Kind.isStatement]
  all_goals
    exact ⟨by simp [Head.isExpression, hhead, hkind, Kind.isStatement], by rw [hkind]; rfl,
      by simp [hkind]⟩

section

variable (ht : Touches L D A s s') (hs : s.Supplied) (hs' : s'.Supplied)
  (hpattern : ∀ y, (s.kind y).inPattern → ¬ D y)
include ht hs hs' hpattern

/-- Patterns that are not touched bind what they bound. -/
theorem Touches.binds_iff (hroot : root < s.size) : s'.Binds root name ↔ s.Binds root name := by
  have hsame : ∀ y < s.size, (s.kind y).inPattern → s'.children y = s.children y := fun y hy hin =>
    ht.row y hy (hpattern y hin)
  constructor
  · rintro ⟨d, hpart, hkind, rfl⟩
    obtain ⟨hpart', hlt⟩ : s.PatternPart root d ∧ d < s.size := by
      refine hpart.congr_reached (P := (· < s.size)) hs'.sound (fun y hy hin => ?_) hroot
        (by rw [hkind]; rfl)
      rw [ht.kind_eq hy] at hin ⊢
      have hrow := hsame y hy hin
      exact ⟨rfl, hrow.symm, fun c hc => hs.sound.child_lt (hrow ▸ hc)⟩
    exact ⟨d, hpart', (ht.kind_eq hlt).symm.trans hkind, (ht.text_eq hlt).symm⟩
  · rintro ⟨d, hpart, hkind, rfl⟩
    obtain ⟨hpart', hlt⟩ := hpart.congr_reached (P := (· < s.size)) hs.sound (fun y hy hin =>
      ⟨ht.kind_eq hy, hsame y hy hin, fun c hc => hs.sound.child_lt hc⟩) hroot (by rw [hkind]; rfl)
    exact ⟨d, hpart', (ht.kind_eq hlt).trans hkind, ht.text_eq hlt⟩

/-- A node whose pattern is where it was declares what it declared. -/
theorem Touches.mem_ownNames_iff (hd : d < s.size)
    (hnames : s.kind d = .declaration → s'.child? d .names = s.child? d .names)
    (hrole : ∀ role, (s.kind d).bindingRole? = some role → s'.child? d role = s.child? d role)
    (hclause : s'.isClause d = s.isClause d) :
    name ∈ Tree.ownNames (s'.isClause d) (s'.view d) ↔
      name ∈ Tree.ownNames (s.isClause d) (s.view d) := by
  have hbinds : ∀ role, (∃ root, s.child? d role = some root ∧ s'.Binds root name) ↔
      ∃ root, s.child? d role = some root ∧ s.Binds root name := fun role =>
    exists_congr fun root => and_congr_right fun hchild =>
      ht.binds_iff hs hs' hpattern (hs.sound.child_lt (mem_of_child? hchild))
  have hdeclared : Tree.isDeclaredFunction (s'.head d) = Tree.isDeclaredFunction (s.head d) := by
    rw [Tree.isDeclaredFunction, Tree.isDeclaredFunction, Head.form_of_bare (ht.bare_eq d hd)]
  rw [mem_ownNames_view hs'.ordered.toForest, mem_ownNames_view hs.ordered.toForest, ht.kind_eq hd,
    ht.text?_eq hd, ht.text_eq hd, hdeclared, hclause]
  refine or_congr Iff.rfl (or_congr (and_congr_right fun hkind => ?_)
    (or_congr (and_congr_right fun hkind => ?_) (and_congr_right fun hkind => ?_)))
  · rw [hnames hkind, hbinds]
  · rw [hrole .exception (by rw [hkind]; rfl), hbinds]
  · rw [hrole .iterator (by rw [hkind]; rfl), hbinds]

end

end Store

/-! ### Nodes that stay in their bodies -/

/-- Expressions that are not made of expressions hold statements, and are met. -/
theorem Kind.isMet_of_isExpression {head : Head} (hexpression : head.isExpression)
    (hoperation : head.kind.isOperation = false) (hfunction : head.kind ≠ .function) :
    head.kind.isMet := by
  revert hexpression hoperation hfunction
  rw [Head.isExpression]
  cases head.kind <;>
    simp [Kind.isStatement, Kind.isOperation, Kind.isMet, Kind.inPattern, Kind.isKey]

namespace Store

/-- A statement, or a part of one, that a combination of declarations leaves where it is. -/
structure Fixed (s : Store) (x : NodeId) : Prop where
  statement : (s.head x).isExpression = false
  not_list : s.kind x ≠ .varList
  not_inList : s.kind x = .declaration → ¬ s.InList x

namespace Combines

variable (h : Combines b R s s') (hs : s.Supplied)
include h hs

/-- Statements stay in the body, below what they were below. -/
theorem inside_of_fixed (hbody : s.kind b = .script) (hx : s.Inside b x) (hfixed : s.Fixed x) :
    s'.Inside b x ∧ s'.parent? x = s.parent? x := by
  induction hx with
  | child hc =>
      obtain ⟨hmem, -⟩ := h.stay b (lt_of_mem_children hc) (by simp [hbody]) (by simp [hbody]) _ hc
        hfixed.not_list
      exact ⟨.child hmem, (h.forest.parent?_of_mem hmem).trans (hs.sound.parent?_of_mem hc).symm⟩
  | @step d c hd hfunction hc ih =>
      have hlink := hs.sound.parent?_of_mem hc
      have hlist : s.kind d ≠ .varList := fun hkind =>
        hfixed.not_inList (hs.declaration_of_mem hkind hc) ⟨d, hlink, hkind⟩
      have hdeclaration : s.kind d ≠ .declaration := fun hkind => by
        have hexpression := hs.part_isExpression hkind hc
        rw [hfixed.statement] at hexpression
        cases hexpression
      have hinside : s'.Inside b d := by
        cases hexpression : (s.head d).isExpression with
        | false => exact (ih ⟨hexpression, hlist, fun hkind => absurd hkind hdeclaration⟩).1
        | true =>
            refine h.inside hs.sound hs.ordered.toForest hbody hd ?_
            exact Kind.isMet_of_isExpression hexpression
              (hs.ordered.not_isOperation hlink hfixed.statement) hfunction
      have hltd : d < s.size := lt_of_mem_children hc
      obtain ⟨hmem, -⟩ := h.stay d hltd hlist hdeclaration c hc hfixed.not_list
      exact ⟨hinside.step (by rwa [h.kind_eq hltd]) hmem,
        (h.forest.parent?_of_mem hmem).trans hlink.symm⟩

variable (hb : s.IsBody b) (hy : s.IsBody y)
include hb hy

/-- Where another body is combined, nothing in a body is touched. -/
theorem bodyNodes_eq (hne : b ≠ y) : s'.bodyNodes y = s.bodyNodes y :=
  h.touches.bodyNodes_eq hs.ordered.toForest h.forest (hy.lt hs.sound.toLinked) fun _ hz =>
    hb.not_touchable hy hs.ordered.toForest hne hz

/-- Statements stay in every body. -/
theorem inside_iff_of_fixed (hlt : x < s.size) (hfixed : s.Fixed x) :
    (s'.Inside y x ↔ s.Inside y x) ∧ (s.Inside y x → s'.parent? x = s.parent? x) := by
  have hf := hs.ordered.toForest
  by_cases hne : b = y
  · subst hne
    have hgives := fun hx => h.inside_of_fixed hs hb.kind_eq hx hfixed
    exact ⟨⟨fun hx => h.back hf.toLinked hx hlt, fun hx => (hgives hx).1⟩, fun hx => (hgives hx).2⟩
  · refine ⟨?_, fun hx => ?_⟩
    · rw [← h.forest.mem_bodyNodes, ← hf.mem_bodyNodes, h.bodyNodes_eq hs hb hy hne]
    · exact (h.held x hlt).resolve_right fun hheld => hne (hb.eq_of_inside hy hf hheld.1 hx)

/-- The iterators of loops stay in every body. -/
theorem filter_isIterator_of_body (hs' : s'.Supplied) :
    (s'.lists y).filter (Declarations.isIterator s') =
      (s.lists y).filter (Declarations.isIterator s) := by
  have hf := hs.ordered.toForest
  by_cases hne : b = y
  · subst hne
    exact h.filter_isIterator hs.sound hf hs'.sound (hb.lt hf.toLinked) hb.kind_eq
  have hoff : ∀ z, z = y ∨ s.Inside y z → ¬ s.Touchable b z := fun _ hz =>
    hb.not_touchable hy hf hne hz
  rw [h.touches.lists_eq hf h.forest (hy.lt hf.toLinked) hoff]
  refine List.filter_congr fun l hl => ?_
  rw [Declarations.isIterator, Declarations.isIterator,
    h.touches.role_of_inside hf hoff (hf.mem_lists.mp hl).1]

end Combines

end Store

/-! ### Names of bodies -/

namespace Declarations

/-- A node of a body declares a name. -/
def Declared (s : Store) (b : NodeId) (name : String) : Prop :=
  ∃ d, s.Inside b d ∧ name ∈ Tree.ownNames (s.isClause d) (s.view d)

/-- Names are declared by the lists of a body, or by what stays where it is. -/
theorem declared_iff (h : s.Supplied) (hbody : s.kind b = .script) : Declared s b name ↔
    Lists s b name ∨
      ∃ d, s.Inside b d ∧ ¬ s.InList d ∧ name ∈ Tree.ownNames (s.isClause d) (s.view d) := by
  have hf := h.ordered.toForest
  constructor
  · rintro ⟨d, hd, hname⟩
    by_cases hlist : s.InList d
    · obtain ⟨l, hlink, hkind⟩ := hlist
      obtain ⟨q, hq, hplace⟩ := hd.parent hf.toLinked
      obtain rfl := Option.some_inj.mp (hlink.symm.trans hq)
      have hinside : s.Inside b l := by
        refine (hplace.resolve_left ?_).2
        rintro rfl
        simp [hbody] at hkind
      obtain ⟨p, hp, -⟩ := hinside.parent hf.toLinked
      have hmem := (hf.linked l d).mpr hlink
      refine .inl ⟨l, hf.mem_lists.mpr ⟨hinside, hkind⟩, List.mem_flatMap.mpr ⟨d, hmem, ?_⟩⟩
      exact (h.mem_ownNames_of_mem hkind hp hmem).mp hname
    · exact .inr ⟨d, hd, hlist, hname⟩
  · rintro (⟨l, hl, hname⟩ | ⟨d, hd, -, hname⟩)
    · obtain ⟨hinside, hkind⟩ := hf.mem_lists.mp hl
      obtain ⟨p, hp, -⟩ := hinside.parent hf.toLinked
      obtain ⟨d, hd, hname⟩ := List.mem_flatMap.mp hname
      exact ⟨d, hinside.step (by simp [hkind]) hd, (h.mem_ownNames_of_mem hkind hp hd).mpr hname⟩
    · exact ⟨d, hd, hname⟩

section

variable (h : Unites b s s') (hs : s.Supplied) (hb : s.IsBody b) (hy : s.IsBody y)
include h hs hb hy

/-- The lists of every body declare what they declared. -/
theorem Unites.lists_iff_of_body : Lists s' y name ↔ Lists s y name := by
  by_cases hne : b = y
  · exact hne ▸ h.names name
  obtain ⟨_, hcombines⟩ := h.combines
  have hf := hs.ordered.toForest
  have hoff : ∀ z, z = y ∨ s.Inside y z → ¬ s.Touchable b z := fun _ hz =>
    hb.not_touchable hy hf hne hz
  refine lists_iff (hcombines.touches.lists_eq hf hcombines.forest (hy.lt hf.toLinked) hoff)
    fun l hl => ?_
  obtain ⟨hinside, hkind⟩ := hf.mem_lists.mp hl
  have hspares : Spares l s s' := by
    refine spares_of_touches hcombines.touches hs hcombines.forest hkind fun x hx _ => ?_
    exact hoff x (.inr (hinside.trans (by simp [hkind]) hx))
  rw [hspares.listNames_eq]
  exact hcombines.touches.row l (lt_of_kind (by simp [hkind])) (hoff l (.inr hinside))

/-- What stays where it is declares what it declared. -/
theorem Unites.mem_ownNames_iff (hlt : d < s.size) (hd : s.Inside y d) (hlist : ¬ s.InList d)
    (hfixed : s.Fixed d) :
    name ∈ Tree.ownNames (s'.isClause d) (s'.view d) ↔
      name ∈ Tree.ownNames (s.isClause d) (s.view d) := by
  obtain ⟨_, hcombines⟩ := h.combines
  have ht := hcombines.touches
  refine ht.mem_ownNames_iff hs h.supplied (fun z hz hD => ?_) hlt (fun hkind => ?_)
    (fun role => hcombines.clause d hlt role) ?_
  · have hoperation := hD.not_operation
    rw [Kind.isOperation_of_inPattern hz] at hoperation
    cases hoperation
  · exact ht.child?_eq hlt (fun hD => hlist (hD.in_list hkind)) .names
  · rw [isClause, isClause, parentKind?, parentKind?,
      (hcombines.inside_iff_of_fixed hs hb hy hlt hfixed).2 hd]
    cases hlink : s.parent? d with
    | none => rfl
    | some p => rw [Option.map_some, Option.map_some, ht.kind_eq (hs.sound.parent_lt hlink)]

omit hb hy in
/-- What declares a name and is in no list was there before, in no list. -/
theorem Unites.old_of_mem_ownNames (hd : s'.Inside y d) (hlist : ¬ s'.InList d)
    (hname : name ∈ Tree.ownNames (s'.isClause d) (s'.view d)) : d < s.size ∧ ¬ s.InList d := by
  obtain ⟨_, hcombines⟩ := h.combines
  have ht := hcombines.touches
  obtain ⟨p, hp, -⟩ := hd.parent hcombines.forest.toLinked
  have hold : s'.kind d = .declaration → s.parent? d = some p := fun hkind =>
    (ht.listed d p hkind hp).resolve_right fun hkind => hlist ⟨p, hp, hkind⟩
  have hlt : d < s.size := by
    refine Nat.lt_of_not_le fun hle => ?_
    have hmade := ht.made d hle (parent?_lt hp)
    rcases (mem_ownNames_view hcombines.forest).mp hname with ⟨hkind, -⟩ | ⟨hkind, -⟩ | ⟨hkind, -⟩ |
      ⟨hkind, -⟩
    case inr.inl => exact Nat.not_lt_of_le hle (parent?_lt (hold hkind))
    all_goals
      simp [hkind, Kind.isMade] at hmade
  refine ⟨hlt, ?_⟩
  rintro ⟨l, hlink, hkind⟩
  refine hlist ⟨p, hp, ?_⟩
  have hkindd := hs.declaration_of_mem hkind ((hs.sound.linked l d).mpr hlink)
  have hsame := hold ((ht.kind_eq hlt).trans hkindd)
  rw [hlink, Option.some_inj] at hsame
  rw [← hsame, ht.kind_eq (hs.sound.parent_lt hlink), hkind]

/-- Every body declares the names that it declared. -/
theorem Unites.declared_iff : Declared s' y name ↔ Declared s y name := by
  obtain ⟨_, hcombines⟩ := h.combines
  have hf := hs.ordered.toForest
  have hbody' : s'.kind y = .script := (hcombines.kind_eq (hy.lt hf.toLinked)).trans hy.kind_eq
  rw [Declarations.declared_iff h.supplied hbody', Declarations.declared_iff hs hy.kind_eq,
    h.lists_iff_of_body hs hb hy]
  refine or_congr_right ⟨?_, ?_⟩
  · rintro ⟨d, hd, hlist, hname⟩
    obtain ⟨hlt, hlist⟩ := h.old_of_mem_ownNames hs hd hlist hname
    obtain ⟨hstatement, -, hkind⟩ := isExpression_of_mem_ownNames hcombines.forest hname
    rw [hcombines.touches.isExpression_eq hlt] at hstatement
    rw [hcombines.kind_eq hlt] at hkind
    have hfixed : s.Fixed d := ⟨hstatement, hkind, fun _ => hlist⟩
    have hd := (hcombines.inside_iff_of_fixed hs hb hy hlt hfixed).1.mp hd
    exact ⟨d, hd, hlist, (h.mem_ownNames_iff hs hb hy hlt hd hlist hfixed).mp hname⟩
  · rintro ⟨d, hd, hlist, hname⟩
    obtain ⟨hstatement, -, hkind⟩ := isExpression_of_mem_ownNames hf hname
    have hfixed : s.Fixed d := ⟨hstatement, hkind, fun _ => hlist⟩
    have hlt := hd.lt hf.toLinked
    obtain ⟨hinside, hparent⟩ := hcombines.inside_iff_of_fixed hs hb hy hlt hfixed
    refine ⟨d, hinside.mpr hd, fun ⟨l, hlink, hkind⟩ => hlist ⟨l, ?_⟩,
      (h.mem_ownNames_iff hs hb hy hlt hd hlist hfixed).mpr hname⟩
    rw [hparent hd] at hlink
    exact ⟨hlink, by rwa [hcombines.kind_eq (hs.sound.parent_lt hlink)] at hkind⟩

end

end Declarations

/-! ### Owners -/

namespace Store

def bodyOf? (s : Store) (F : NodeId) : Option NodeId :=
  if s.kind F = .function then s.child? F .body else some F

theorem mem_bodies_of_owner (h : s.Forest) (hF : s.Owner F) (hwithin : s.Within F s.root)
    (hb : s.bodyOf? F = some b) : b ∈ s.bodies := by
  rw [bodyOf?] at hb
  split at hb
  case isTrue hkind =>
      refine List.mem_cons_of_mem _ (List.mem_filterMap.mpr ⟨F, h.mem_descendants hwithin, ?_⟩)
      rw [if_pos hkind, hb]
  case isFalse hkind =>
      obtain rfl := hF.resolve_right hkind
      rw [← Option.some_inj.mp hb]
      exact List.mem_cons_self

/-- What the scan of an owner meets is in its body. -/
theorem Meets.inside_body (hF : s.OwnsBody F) (hd : s.Meets F d) :
    ∃ b, s.bodyOf? F = some b ∧ s.Inside b d := by
  induction hd with
  | @top c hc =>
      rw [scannedChildren] at hc
      rw [bodyOf?]
      rcases hF with hkind | hkind
      · rw [hkind] at hc
        cases hbody : s.child? F .body with
        | none =>
            simp only [hbody] at hc
            cases hc
        | some body =>
            simp only [hbody] at hc
            exact ⟨body, if_pos hkind, .child hc⟩
      · rw [hkind] at hc
        exact ⟨F, if_neg (by simp [hkind]), .child hc⟩
  | @next d c _ hc ih =>
      obtain ⟨b, hb, hinside⟩ := ih
      refine ⟨b, hb, hinside.step (fun hkind => ?_) (mem_children_of_scanBelow hc)⟩
      rw [scanBelow, if_pos (.inr hkind)] at hc
      cases hc

theorem Inside.of_body (h : s.Sound) (hb : s.bodyOf? F = some b) (hd : s.Inside b d) :
    s.Inside F d := by
  rw [bodyOf?] at hb
  split at hb
  case isTrue hkind =>
      exact (Inside.child (mem_of_child? hb)).trans (by simp [h.kind_body hkind hb]) hd
  case isFalse => exact Option.some_inj.mp hb ▸ hd

/-- An owner declares its own name at most, and what its body declares. -/
theorem Sound.mem_declared_iff (h : s.Sound) (hf : s.Forest) (hF : s.OwnsBody F) :
    name ∈ (s.view F).scope.declared ↔
      (s.NamesItself F ∧ (s.text? F).isSome ∧ s.text F = name) ∨
        ∃ b, s.bodyOf? F = some b ∧ Declared s b name := by
  rw [mem_declared_scope hf h hF, mem_declared_startScope]
  refine or_congr_right ⟨fun ⟨d, hd, hname⟩ => ?_, fun ⟨b, hb, d, hd, hname⟩ => ⟨d, ?_, hname⟩⟩
  · obtain ⟨b, hb, hinside⟩ := hd.inside_body hF
    exact ⟨b, hb, d, hinside, hname⟩
  · exact (hd.of_body h hb).meets h hF (isExpression_of_mem_ownNames hf hname).2.1

end Store

end ScriptMin
