import ScriptMin.Proofs.Pass.Evaluation
import ScriptMin.Proofs.Pass.Declaring

/-!
The combination of declarations in all bodies of a tree. A body that has been combined is left as it
is when other bodies are, and nothing is left to be combined in it.
Main statements: after a combination a second one reports no change and leaves the tree as it is;
every body declares what it declared, in one list of declarations at most, and evaluates what it
evaluated, in order.
-/

namespace ScriptMin

open Store Edit Declarations

variable {s s' s₁ s₂ : Store} {b y F x z : NodeId} {L : Prop} {D A R : NodeId → Prop}
  {rest : List NodeId}

/-- A settled body stays settled when another one is edited. -/
theorem Declarations.Settled.later (hsettled : Settled y s) (h : Touches L D A s s')
    (hs : s.Supplied) (hs' : s'.Forest) (hlt : y < s.size)
    (hoff : ∀ z, z = y ∨ s.Inside y z → ¬ D z) : Settled y s' := by
  have hf := hs.ordered.toForest
  have hlists := h.lists_eq hf hs' hlt hoff
  have hit : ∀ l ∈ s.lists y, isIterator s' l = isIterator s l := by
    intro l hl
    rw [isIterator, isIterator, h.role_of_inside hf hoff (hf.mem_lists.mp hl).1]
  refine ⟨?_, ?_⟩
  · rw [hlists]
    exact fun l hl => (hit l (List.mem_of_mem_tail hl)).trans (hsettled.others l hl)
  · rw [hlists]
    intro l hl hitl
    have hmem := List.mem_of_mem_head? hl
    obtain ⟨hinside, hkind⟩ := hf.mem_lists.mp hmem
    rw [hit l hmem] at hitl
    refine Spares.pruned (spares_of_touches h hs hs' hkind fun x hx _ => ?_) ?_
      (hsettled.pruned l hl hitl)
    · exact hoff x (.inr (hinside.trans (by simp [hkind]) hx))
    · exact h.row l (lt_of_kind (by simp [hkind])) (hoff l (.inr hinside))

/-! ### All bodies -/

/-- What happens that is no matter of how declarations are listed: assignments and initializers, the
other expressions, and statements. Lists of declarations come and go, and they may move into the
head of a loop, so that these are left out. -/
def Store.recalls (s : Store) : Event → Bool
  | .list _ => false
  | .assigns _ _ => true
  | .expression x => x < s.size
  | .passes x => x < s.size && s.kind x != .forLoop

theorem Store.stable_recalls (s : Store) : s.Stable s.recalls where
  fresh x hle := by simp [Store.recalls, hle]
  loops x hkind := by simp [Store.recalls, hkind]

/-- What the combination of declarations keeps of a body. -/
structure Preserves (s s' : Store) (b : NodeId) : Prop where
  declared : ∀ name, Declared s' b name ↔ Declared s b name
  iterators : (s'.lists b).filter (isIterator s') = (s.lists b).filter (isIterator s)
  events : s'.events s.recalls b = s.events s.recalls b

/-- Nodes that have come below nodes of a tree, or below new ones, were in that tree. -/
def Descends (s s' : Store) : Prop :=
  ∀ x p, s'.parent? x = some p → s.size ≤ p ∨ s.Within p s.root → x < s.size → s.Within x s.root

namespace Descends

theorem refl (h : s.Linked) : Descends s s := by
  intro x p hp hcase _
  rcases hcase with hle | hp'
  · exact absurd (h.parent_lt hp) (Nat.not_lt_of_le hle)
  · exact (within_of_parent hp).trans hp'

theorem step (h : Descends s s₁) (hle : s.size ≤ s₁.size) (hb : s.Within b s.root)
    (hs₁ : s₁.Linked) (hcombines : Combines b R s₁ s₂) : Descends s s₂ := by
  have hinside : ∀ {x}, s₁.Inside b x → x < s.size → s.Within x s.root := by
    intro x hx
    induction hx with
    | child hc => exact h _ _ (hs₁.parent?_of_mem hc) (.inr hb)
    | @step d c _ _ hc ih =>
        refine h c d (hs₁.parent?_of_mem hc) ?_
        exact (Nat.lt_or_ge d s.size).symm.imp_right ih
  intro x p hp hcase hx
  rcases hcombines.held x (hx.trans_le hle) with hsame | ⟨hmem, -⟩
  · rw [hp] at hsame
    exact h x p hsame.symm hcase hx
  · exact hinside hmem hx

theorem within (h : Descends s s') (hroot : s'.root = s.root)
    (hx : s'.Within x s'.root) : s.size ≤ x ∨ s.Within x s.root := by
  induction hx using Relation.ReflTransGen.head_induction_on with
  | refl => exact .inr (hroot ▸ .refl)
  | @head x p hp _ ih => exact (Nat.lt_or_ge x s.size).symm.imp_right (h x p hp ih)

end Descends

/-- What a sweep over bodies gives that combines their declarations. -/
structure Combined (s s' : Store) (rest : List NodeId) : Prop where
  supplied : s'.Supplied
  size_le : s.size ≤ s'.size
  root_eq : s'.root = s.root
  bare_eq : ∀ x < s.size, (s'.head x).bare = (s.head x).bare
  descends : Descends s s'
  functions : ∀ F, s'.kind F = .function →
    F < s.size ∧ s.kind F = .function ∧ s'.child? F .body = s.child? F .body
  bodies : ∀ b ∈ s.bodies, s'.IsBody b
  settled : ∀ b ∈ s.bodies, b ∈ rest ∨ Settled b s'
  preserves : ∀ b ∈ s.bodies, Preserves s s' b
  rests : ∀ x, s.InIterator x → s'.InIterator x ∧ Rests s s' x

theorem within_of_mem_bodies (h : s.Forest) (hb : b ∈ s.bodies) : s.Within b s.root := by
  rcases List.mem_cons.mp hb with rfl | hb
  · exact .refl
  · obtain ⟨F, hF, hchild⟩ := List.mem_filterMap.mp hb
    split at hchild
    case isTrue =>
        have hlink := within_of_parent (h.parent?_of_mem (mem_of_child? hchild))
        exact hlink.trans (h.mem_descendants_iff.mp hF)
    case isFalse => cases hchild

namespace Combined

theorem start (h : s.Supplied) : Combined s s s.bodies where
  supplied := h
  size_le := Nat.le_refl _
  root_eq := rfl
  bare_eq _ _ := rfl
  descends := .refl h.sound.toLinked
  functions _ hF := ⟨lt_of_kind (by simp [hF]), hF, rfl⟩
  bodies _ hb := isBody_of_mem h.ordered hb
  settled _ hb := .inl hb
  preserves _ _ := ⟨fun _ => Iff.rfl, rfl, rfl⟩
  rests _ hx := ⟨hx, rfl, rfl, rfl, fun _ _ => rfl⟩

theorem kind_eq (h : Combined s s' rest) (hx : x < s.size) : s'.kind x = s.kind x :=
  Head.kind_of_bare (h.bare_eq x hx)

/-- One more body is combined. -/
theorem step (h : Combined s s₁ (b :: rest)) (hs : s.Supplied) (hb : b ∈ s.bodies)
    (hsettles : Settles b s₁ s₂) : Combined s s₂ rest := by
  obtain ⟨hunites, hsettled⟩ := hsettles
  obtain ⟨R, hcombines⟩ := hunites.combines
  have hf₁ := h.supplied.ordered.toForest
  have hbody := h.bodies b hb
  refine ⟨hunites.supplied, h.size_le.trans hcombines.touches.size_le, ?_, fun x hx => ?_, ?_,
    fun F hF => ?_, fun y hy => ?_, fun y hy => ?_, fun y hy => ?_, fun x hx => ?_⟩
  · rw [hcombines.touches.root_eq, h.root_eq]
  · rw [hcombines.touches.bare_eq x (hx.trans_le h.size_le), h.bare_eq x hx]
  · exact h.descends.step h.size_le (within_of_mem_bodies hs.ordered.toForest hb) hf₁.toLinked
      hcombines
  · have hlt : F < s₁.size := by
      refine Nat.lt_of_not_le fun hle => ?_
      have hmade := hcombines.touches.made F hle (lt_of_kind (by simp [hF]))
      simp [hF, Kind.isMade] at hmade
    rw [hcombines.kind_eq hlt] at hF
    obtain ⟨hltF, hkind, hchild⟩ := h.functions F hF
    refine ⟨hltF, hkind, ?_⟩
    rw [hcombines.touches.child?_eq hlt fun hD => hD.not_function hF, hchild]
  · exact (h.bodies y hy).later hf₁.toLinked hcombines
  · by_cases hne : b = y
    · exact .inr (hne ▸ hsettled)
    · refine (h.settled y hy).imp (fun hmem => ?_) fun hsettled' => ?_
      · exact (List.mem_cons.mp hmem).resolve_left fun heq => hne heq.symm
      · have hbodyy := h.bodies y hy
        exact hsettled'.later hcombines.touches h.supplied hcombines.forest (hbodyy.lt hf₁.toLinked)
          fun z hz => hbody.not_touchable hbodyy hf₁ hne hz
  · have hbodyy := h.bodies y hy
    obtain ⟨hdeclared, hiterators, hevents⟩ := h.preserves y hy
    refine ⟨fun name => ?_, ?_, Eq.trans ?_ hevents⟩
    · rw [hunites.declared_iff h.supplied hbody hbodyy, hdeclared]
    · rw [hcombines.filter_isIterator_of_body h.supplied hbody hbodyy hunites.supplied, hiterators]
    · have hstable : s₁.Stable s.recalls := s.stable_recalls.of_kind_eq h.size_le fun _ => h.kind_eq
      exact hcombines.events _ hstable (fun _ _ => rfl) y (hbodyy.lt hf₁.toLinked) hbodyy.kind_eq
  · obtain ⟨hx₁, hrests⟩ := h.rests x hx
    exact ⟨hcombines.inIterator hf₁.toLinked hx₁, hrests.trans (hcombines.rests hf₁.toLinked hx₁)⟩

/-- The bodies after a combination were bodies before. -/
theorem mem_bodies (h : Combined s s' rest) (hs : s.Forest) (hy : y ∈ s'.bodies) :
    y ∈ s.bodies := by
  rcases List.mem_cons.mp hy with rfl | hy
  · rw [h.root_eq]
    exact List.mem_cons_self
  · obtain ⟨F, hF, hchild⟩ := List.mem_filterMap.mp hy
    split at hchild
    case isFalse => cases hchild
    case isTrue hkind =>
        obtain ⟨hlt, hkind', hsame⟩ := h.functions F hkind
        have hreached := h.supplied.ordered.toForest.mem_descendants_iff.mp hF
        have hwithin := (h.descends.within h.root_eq hreached).resolve_left (Nat.not_le_of_lt hlt)
        refine List.mem_cons_of_mem _ (List.mem_filterMap.mpr ⟨F, hs.mem_descendants hwithin, ?_⟩)
        rw [if_pos hkind', ← hsame, hchild]

end Combined

theorem gives_combineDeclarations (h : s.Supplied) :
    Gives combineDeclarations s fun _ s' => Combined s s' [] := by
  rw [combineDeclarations, gives_bind, gives_get]
  refine (gives_sweep (I := fun rest s' => rest ⊆ s.bodies ∧ Combined s s' rest)
    ⟨List.Subset.refl _, .start h⟩ ?_).mono fun _ _ hs => hs.2
  rintro b rest s₁ ⟨hsub, hs₁⟩
  obtain ⟨hb, hsub⟩ := List.cons_subset.mp hsub
  have hbody := hs₁.bodies b hb
  refine (gives_visitBody hs₁.supplied (hbody.lt hs₁.supplied.sound.toLinked)
    hbody.kind_eq).mono fun _ s₂ hs₂ => ?_
  exact ⟨hsub, hs₁.step h hb hs₂⟩

/-- Scripts and functions keep their bodies. -/
theorem Combined.bodyOf?_eq (h : Combined s s' rest) (hlt : F < s.size) :
    s'.bodyOf? F = s.bodyOf? F := by
  have hkind := h.kind_eq hlt
  rw [bodyOf?, bodyOf?, hkind]
  split
  case isTrue hfunction => exact (h.functions F (hkind.trans hfunction)).2.2
  case isFalse => rfl

/-- An owner of a body declares the names that it declared. -/
theorem Combined.mem_declared_iff (h : Combined s s' rest) (hs : s.Supplied) (hF : s.Owner F)
    (hwithin : s.Within F s.root) {name : String} :
    name ∈ (s'.view F).scope.declared ↔ name ∈ (s.view F).scope.declared := by
  have hf := hs.ordered.toForest
  have hlt : F < s.size := hwithin.lt_of_lt hf.root_lt
  have hbare := h.bare_eq F hlt
  have hkind := h.kind_eq hlt
  have hF' : s'.Owner F := hF.of_eq h.root_eq hkind
  have hitself : s'.NamesItself F ↔ s.NamesItself F := by
    rw [NamesItself, NamesItself, hkind, Head.form_of_bare hbare, Head.isAccessor_of_bare hbare]
  have htext : s'.text? F = s.text? F := Head.text?_of_bare hbare
  rw [h.supplied.sound.mem_declared_iff h.supplied.ordered.toForest (hF'.ownsBody h.supplied.sound),
    hs.sound.mem_declared_iff hf (hF.ownsBody hs.sound), hitself, htext, h.bodyOf?_eq hlt,
    Thins.text_eq_of_text? htext]
  refine or_congr_right (exists_congr fun b => and_congr_right fun hb => ?_)
  exact (h.preserves b (mem_bodies_of_owner hf hF hwithin hb)).declared name

/-- Where all bodies are settled there is nothing to combine. -/
theorem run_combineDeclarations (h : s.Supplied) (hsettled : ∀ b ∈ s.bodies, Settled b s) :
    combineDeclarations.run s = (false, s) := by
  rw [combineDeclarations, run_get]
  exact run_sweep fun b hb =>
    (hsettled b hb).run_visitBody h (isBody_of_mem h.ordered hb).kind_eq

/-- Declarations are combined at once. Whatever passes have run on a script, a second combination of
declarations right after a first one reports no change and leaves the tree as it is. -/
theorem combineDeclarations_idempotent {source : String} {line : Nat} {t : Tree}
    (hparse : parseScript source line = .ok t) (transforms : List Transform) :
    let s := transforms.foldl Transform.run (.ofTree t)
    let s' := (combineDeclarations.run s).2
    combineDeclarations.run s' = (false, s') := by
  intro s s'
  have hs : s.Supplied := supplied_of_parseScript hparse transforms
  have hcombined : Combined s s' [] := gives_combineDeclarations hs
  refine run_combineDeclarations hcombined.supplied fun b hb => ?_
  have hb' := hcombined.mem_bodies hs.ordered.toForest hb
  exact (hcombined.settled b hb').resolve_left (by simp)

/-- An iterator, and two lists of declarations before a loop that declare a name twice. -/
def declaredTwice : String := "for(var a in b);var c=1,d;e();var d=2;for(;c;);"

theorem parseScript_declaredTwice : parseScript declaredTwice 1 = .ok (treeOf declaredTwice) :=
  parseScript_treeOf (by decide +kernel)

theorem combineDeclarations_idempotent_declaredTwice :
    ∃ t, parseScript declaredTwice 1 = .ok t ∧
      let s' := (combineDeclarations.run (.ofTree t)).2
      (combineDeclarations.run (.ofTree t)).1 = true ∧
        combineDeclarations.run s' = (false, s') := by
  exact ⟨_, parseScript_declaredTwice, by decide +kernel,
    combineDeclarations_idempotent parseScript_declaredTwice []⟩

/-- The combination of declarations keeps bindings and the order of initializers. Whatever passes
have run on a script, every body declares the names that it declared, and has one list of
declarations at most that is no iterator of a loop. Iterators stay as they are, with all that belongs
to them but the bodies of functions, which are combined on their own. What is assigned, by
a declaration or by an assignment, and what else is evaluated stays in order. -/
theorem combineDeclarations_preserves {source : String} {line : Nat} {t : Tree}
    (hparse : parseScript source line = .ok t) (transforms : List Transform) :
    let s := transforms.foldl Transform.run (.ofTree t)
    let s' := (combineDeclarations.run s).2
    (∀ x < s.size, (s'.head x).bare = (s.head x).bare) ∧
      ∀ F, s.Owner F → s.Within F s.root →
        (∀ name, name ∈ (s'.view F).scope.declared ↔ name ∈ (s.view F).scope.declared) ∧
        s'.bodyOf? F = s.bodyOf? F ∧
        ∀ b, s.bodyOf? F = some b →
          ((s'.lists b).filter fun l => !isIterator s' l).length ≤ 1 ∧
          (s'.lists b).filter (isIterator s') = (s.lists b).filter (isIterator s) ∧
          (∀ l ∈ s.lists b, isIterator s l → ∀ x, s.Beneath l x → Rests s s' x) ∧
          s'.events s.recalls b = s.events s.recalls b := by
  intro s s'
  have hs : s.Supplied := supplied_of_parseScript hparse transforms
  have hf := hs.ordered.toForest
  have hcombined : Combined s s' [] := gives_combineDeclarations hs
  refine ⟨hcombined.bare_eq, fun F hF hwithin => ⟨fun name => ?_, ?_, fun b hb => ?_⟩⟩
  · exact hcombined.mem_declared_iff hs hF hwithin
  · exact hcombined.bodyOf?_eq (hwithin.lt_of_lt hf.root_lt)
  · have hmem := mem_bodies_of_owner hf hF hwithin hb
    have hpreserves := hcombined.preserves b hmem
    have hsettled := (hcombined.settled b hmem).resolve_left (by simp)
    refine ⟨hsettled.length_filter_le, hpreserves.iterators, fun l hl hit x hx => ?_,
      hpreserves.events⟩
    exact (hcombined.rests x ⟨l, (hf.mem_lists.mp hl).2, hit, hx⟩).2

theorem combineDeclarations_preserves_declaredTwice :
    ∃ t, parseScript declaredTwice 1 = .ok t ∧
      let s := Store.ofTree t
      let s' := (combineDeclarations.run s).2
      (s.lists s.root).length = 3 ∧ (s'.lists s.root).length = 2 ∧
        s'.bodyOf? s.root = some s.root ∧
        (∀ name, name ∈ (s'.view s.root).scope.declared ↔
          name ∈ (s.view s.root).scope.declared) ∧
        ((s'.lists s.root).filter fun l => !isIterator s' l).length ≤ 1 ∧
        s'.events s.recalls s.root = s.events s.recalls s.root := by
  have hbody : (Store.ofTree (treeOf declaredTwice)).bodyOf?
      (Store.ofTree (treeOf declaredTwice)).root =
        some (Store.ofTree (treeOf declaredTwice)).root := by decide +kernel
  obtain ⟨-, howner⟩ := combineDeclarations_preserves parseScript_declaredTwice []
  obtain ⟨hdeclared, hsame, hlists⟩ := howner _ (.inl rfl) .refl
  obtain ⟨hlength, -, -, hevents⟩ := hlists _ hbody
  exact ⟨_, parseScript_declaredTwice, by decide +kernel, by decide +kernel, hsame.trans hbody,
    hdeclared, hlength, hevents⟩

end ScriptMin
