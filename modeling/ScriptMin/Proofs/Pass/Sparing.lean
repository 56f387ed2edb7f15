import ScriptMin.Proofs.Pass.Binding
import ScriptMin.Proofs.Pass.Jumps
import ScriptMin.Proofs.Pass.Rounds
import ScriptMin.Proofs.Pass.Soundness

/-!
What the removal of declarations spares. Main statement: however many rounds it takes, what is done
for its effect stays in its place, every name that is left is bound where it was bound, functions
of the script, constants, caught exceptions and patterns stay, and a body that uses `eval` loses
nothing.
-/

namespace ScriptMin

open Store Edit

namespace Store

variable {s s' s'' : Store} {id root F G c d p x y : NodeId} {name : String}

/-- What is done in a body for its effect, in order: initializers of `var` declarations that can have
one, and expressions that are statements. -/
def effects (s : Store) (owner : NodeId) : List NodeId :=
  (s.bodyNodes owner).filter fun x => s.hasEffect x || s.isAlone x

/-- What the removal of declarations spares. -/
structure Spares (s s' : Store) : Prop where
  evolves : s.Evolves s'
  ordered : s'.Ordered
  /-- All that is done for its effect in a body is left there, once and in the same order. -/
  effects : ∀ G, s.Owner G →
    (s'.bodyNodes G).filter (fun x => decide (x ∈ s.effects G)) = s.effects G
  /-- It is the same as before, and an initializer or a statement. -/
  performed : ∀ x, s.hasEffect x ∨ s.isAlone x →
    (s'.hasEffect x ∨ s'.isAlone x) ∧ (s'.view x).outline = (s.view x).outline
  /-- A name that is left is bound where it was bound. -/
  binder : ∀ x, s'.Within x s'.root → s'.kind x = .identifier →
    Locals.isPropertyName s' x = false → s.Within x s.root ∧ Locals.isPropertyName s x = false ∧
      s'.text x = s.text x ∧ s'.binder? x = s.binder? x
  /-- The functions that the script declares are left. -/
  function : ∀ f ∈ s.bodyNodes s.root, s.kind f = .function → Tree.isDeclaredFunction (s.head f) →
    f ∈ s'.bodyNodes s.root ∧ Tree.isDeclaredFunction (s'.head f) ∧ s'.text? f = s.text? f
  /-- Declarations by `let` and `const` are left. -/
  constant : ∀ G, s.Owner G → ∀ d ∈ s.bodyNodes G, s.kind d = .declaration →
    s.parentKind? d ≠ some .varList →
    d ∈ s'.bodyNodes G ∧ s'.parent? d = s.parent? d ∧ s'.text? d = s.text? d
  /-- Patterns of declarations and caught exceptions are left. -/
  pattern : ∀ G, s.Owner G → ∀ d ∈ s.bodyNodes G, ∀ role root,
    s.kind d = .declaration ∧ role = .names ∨ s.kind d = .catchClause ∧ role = .exception →
    s.child? d role = some root → d ∈ s'.bodyNodes G ∧ s'.child? d role = some root ∧
      (s'.view root).boundNames = (s.view root).boundNames
  /-- Patterns of parameters are left. -/
  parameter : ∀ G params root, s.kind G = .function → s.child? G .params = some params →
    root ∈ s.children params → s.kind root ≠ .identifier →
    s'.child? G .params = some params ∧ root ∈ s'.children params ∧
      (s'.view root).boundNames = (s.view root).boundNames
  /-- A body that uses `eval` is left with all that is in it and with all its local names. -/
  eval : ∀ G, s.Owner G → s.Within G s.root → (s.view G).scope.usesEval →
    s'.Within G s'.root ∧ (s'.view G).scope.usesEval ∧
      (∀ y, y = G ∨ y ∈ s.bodyNodes G → s'.children y = s.children y) ∧
      ∀ name, (s.view G).scope.isLocal name → (s'.view G).scope.isLocal name

theorem mem_effects (hs : s.Forest) :
    x ∈ s.effects G ↔ s.Inside G x ∧ (s.hasEffect x ∨ s.isAlone x) := by
  rw [effects, List.mem_filter, hs.mem_bodyNodes, Bool.or_eq_true]

/-- What is done for its effect has been done in a certain order. -/
theorem filter_mem_effects : (s.bodyNodes G).filter (fun x => decide (x ∈ s.effects G)) =
    s.effects G := by
  rw [effects]
  refine List.filter_congr fun x hx => ?_
  simp [List.mem_filter, hx]

namespace Spares

theorem refl (h : s.Sound) (hs : s.Ordered) : s.Spares s where
  evolves := .refl h
  ordered := hs
  effects _ _ := filter_mem_effects
  performed _ hx := ⟨hx, rfl⟩
  binder _ hwithin _ hproperty := ⟨hwithin, hproperty, rfl, rfl⟩
  function _ hf _ hdeclared := ⟨hf, hdeclared, rfl⟩
  constant _ _ _ hd _ _ := ⟨hd, rfl, rfl⟩
  pattern _ _ _ hd _ _ _ hchild := ⟨hd, hchild, rfl⟩
  parameter _ _ _ _ hchild hmem _ := ⟨hchild, hmem, rfl⟩
  eval _ _ hwithin heval := ⟨hwithin, heval, fun _ _ => rfl, fun _ => id⟩

variable (h : s.Spares s') (h' : s'.Spares s'')

theorem owner (h : s.Spares s') (hs : s.Linked) (hG : s.Owner G) : s'.Owner G :=
  hG.of_eq h.evolves.root_eq (h.evolves.kind_eq G (hG.lt hs))

include h h'

theorem trans (hs : s.Sound) (ho : s.Ordered) : s.Spares s'' where
  evolves := h.evolves.trans h'.evolves
  ordered := h'.ordered
  effects G hG := by
    have hkept := h'.effects G (h.owner hs.toLinked hG)
    -- What was done at first was still done in between.
    have hstill : ∀ x ∈ s.effects G, x ∈ s'.effects G := by
      intro x hx
      have hmem : x ∈ (s'.bodyNodes G).filter fun x => decide (x ∈ s.effects G) := by
        rwa [h.effects G hG]
      refine (mem_effects h.ordered.toForest).mpr ⟨?_, (h.performed x ?_).1⟩
      · exact h.ordered.toForest.mem_bodyNodes.mp (List.mem_filter.mp hmem).1
      · exact ((mem_effects ho.toForest).mp hx).2
    calc (s''.bodyNodes G).filter (fun x => decide (x ∈ s.effects G))
        = ((s''.bodyNodes G).filter fun x => decide (x ∈ s'.effects G)).filter
            fun x => decide (x ∈ s.effects G) := by
          rw [List.filter_filter]
          refine List.filter_congr fun x _ => ?_
          by_cases hx : x ∈ s.effects G
          · simp [hx, hstill x hx]
          · simp [hx]
      _ = (s'.bodyNodes G).filter fun x => decide (x ∈ s.effects G) := by
          rw [hkept, show s'.effects G = (s'.bodyNodes G).filter _ from rfl, List.filter_filter]
          refine List.filter_congr fun x hmem => ?_
          by_cases hx : x ∈ s.effects G
          · have hdone := ((mem_effects h.ordered.toForest).mp (hstill x hx)).2
            simpa [hx] using hdone
          · simp [hx]
      _ = s.effects G := h.effects G hG
  performed x hx := by
    obtain ⟨hx', houtline⟩ := h.performed x hx
    obtain ⟨hx'', houtline'⟩ := h'.performed x hx'
    exact ⟨hx'', houtline'.trans houtline⟩
  binder x hwithin hkind hproperty := by
    obtain ⟨hwithin', hproperty', htext', hbinder'⟩ := h'.binder x hwithin hkind hproperty
    have hlt : x < s'.size := by
      rcases hwithin'.cases with rfl | ⟨p, hp, -⟩
      · exact h.ordered.root_lt
      · exact parent?_lt hp
    obtain ⟨hwithin₀, hproperty₀, htext, hbinder⟩ := h.binder x hwithin'
      ((h'.evolves.kind_eq x hlt).symm.trans hkind) hproperty'
    exact ⟨hwithin₀, hproperty₀, htext'.trans htext, hbinder'.trans hbinder⟩
  function f hf hkind hdeclared := by
    obtain ⟨hf', hdeclared', htext⟩ := h.function f hf hkind hdeclared
    have hlt := (ho.toForest.mem_bodyNodes.mp hf).lt hs.toLinked
    obtain ⟨hf'', hdeclared'', htext'⟩ := h'.function f (h.evolves.root_eq ▸ hf')
      ((h.evolves.kind_eq f hlt).trans hkind) hdeclared'
    exact ⟨h.evolves.root_eq ▸ hf'', hdeclared'', htext'.trans htext⟩
  constant G hG d hd hkind hparent := by
    obtain ⟨hd', hparent', htext⟩ := h.constant G hG d hd hkind hparent
    have hinside := ho.toForest.mem_bodyNodes.mp hd
    have hlt := hinside.lt hs.toLinked
    obtain ⟨p, hp, -⟩ := hinside.parent hs.toLinked
    have hlist : s'.parentKind? d ≠ some .varList := by
      rw [parentKind?_of_parent hp] at hparent
      rwa [parentKind?_of_parent (hparent'.trans hp), h.evolves.kind_eq p (hs.parent_lt hp)]
    obtain ⟨hd'', hparent'', htext'⟩ := h'.constant G (h.owner hs.toLinked hG) d hd'
      ((h.evolves.kind_eq d hlt).trans hkind) hlist
    exact ⟨hd'', hparent''.trans hparent', htext'.trans htext⟩
  pattern G hG d hd role root hcase hchild := by
    obtain ⟨hd', hchild', hnames⟩ := h.pattern G hG d hd role root hcase hchild
    have hlt := (ho.toForest.mem_bodyNodes.mp hd).lt hs.toLinked
    obtain ⟨hd'', hchild'', hnames'⟩ := h'.pattern G (h.owner hs.toLinked hG) d hd' role root
      (by rwa [h.evolves.kind_eq d hlt]) hchild'
    exact ⟨hd'', hchild'', hnames'.trans hnames⟩
  parameter G params root hG hchild hmem hkind := by
    obtain ⟨hchild', hmem', hnames⟩ := h.parameter G params root hG hchild hmem hkind
    obtain ⟨hchild'', hmem'', hnames'⟩ := h'.parameter G params root
      ((h.evolves.kind_eq G (lt_of_kind (by simp [hG]))).trans hG) hchild' hmem'
      (by rwa [h.evolves.kind_eq root (hs.child_lt hmem)])
    exact ⟨hchild'', hmem'', hnames'.trans hnames⟩
  eval G hG hwithin heval := by
    obtain ⟨hwithin', heval', hrow, hlocal⟩ := h.eval G hG hwithin heval
    obtain ⟨hwithin'', heval'', hrow', hlocal'⟩ :=
      h'.eval G (h.owner hs.toLinked hG) hwithin' heval'
    have hinside : ∀ y, s.Inside G y → s'.Inside G y := by
      intro y hy
      induction hy with
      | child hmem => exact .child (by rwa [hrow G (.inl rfl)])
      | @step e c hinside hfunction hmem ih =>
          refine .step ih (by rwa [h.evolves.kind_eq e (hinside.lt hs.toLinked)]) ?_
          rwa [hrow e (.inr (ho.toForest.mem_bodyNodes.mpr hinside))]
    refine ⟨hwithin'', heval'', fun y hy => ?_, fun name hname => hlocal' name (hlocal name hname)⟩
    rw [hrow' y ?_, hrow y hy]
    exact hy.imp_right fun hy => h.ordered.toForest.mem_bodyNodes.mpr
      (hinside y (ho.toForest.mem_bodyNodes.mp hy))

end Spares

/-! ### A scan -/

/-- Scopes are nothing that is spared or not. -/
theorem Alike.spares (h : s.Alike s') (hevolves : s.Evolves s') (hordered : s'.Ordered) :
    s.Spares s' := by
  have hrole : s'.role? = s.role? := funext fun x => by rw [role?, role?, h.head_eq]
  have htext? : s'.text? = s.text? := funext fun x => by rw [text?, text?, h.head_eq]
  have htext : s'.text = s.text := funext fun x => by rw [text, text, h.head_eq]
  have hparentKind : s'.parentKind? = s.parentKind? := funext fun x => by
    rw [parentKind?, parentKind?, h.parent_eq, h.kind_eq]
  have hchild : s'.child? = s.child? := funext fun x => funext fun role => by
    rw [child?, child?, h.children_eq, hrole]
  have heffect : s'.hasEffect = s.hasEffect := funext fun x => by
    rw [hasEffect, hasEffect, hrole, hparentKind, h.parent_eq, h.view_eq]
  have halone : s'.isAlone = s.isAlone := funext fun x => by
    rw [isAlone, isAlone, hrole, hparentKind]
  have hproperty : ∀ x, Locals.isPropertyName s' x = Locals.isPropertyName s x := fun x => by
    simp only [Locals.isPropertyName, indexOf?, hparentKind, h.parent_eq, h.children_eq]
  have hbinder : ∀ x, s'.binder? x = s.binder? x := fun x => by
    rw [binder?, binder?, htext, h.binderAt?_eq]
  refine ⟨hevolves, hordered, fun G _ => ?_, fun x hx => ?_, fun x hwithin _ hname => ?_,
    fun f hf _ hdeclared => ?_, fun G _ d hd _ _ => ?_, fun G _ d hd role root _ hc => ?_,
    fun G params root _ hparams hmem _ => ?_, fun G _ hwithin heval => ?_⟩
  · rw [h.bodyNodes_eq]
    exact filter_mem_effects
  · rw [heffect, halone, h.view_eq]
    exact ⟨hx, rfl⟩
  · rw [h.within_iff, h.root_eq] at hwithin
    rw [hproperty] at hname
    exact ⟨hwithin, hname, congrFun htext x, hbinder x⟩
  · rw [h.bodyNodes_eq, h.head_eq, htext?]
    exact ⟨hf, hdeclared, rfl⟩
  · rw [h.bodyNodes_eq, h.parent_eq, htext?]
    exact ⟨hd, rfl, rfl⟩
  · rw [h.bodyNodes_eq, hchild, h.view_eq]
    exact ⟨hd, hc, rfl⟩
  · rw [hchild, h.children_eq, h.view_eq]
    exact ⟨hparams, hmem, rfl⟩
  · rw [h.within_iff, h.root_eq, h.view_eq, h.children_eq]
    exact ⟨hwithin, heval, fun _ _ => rfl, fun _ => id⟩

/-! ### A round -/

namespace Thins

variable (h : Thins s s') (hs : s.Sound) (ho : s.Ordered)

include h hs ho

omit hs in
theorem outline_eq (hlt : x < s.size) (hx : ¬ s.InFrame x) :
    (s'.view x).outline = (s.view x).outline := by
  refine ho.toForest.outline_view_eq h.ordered.toForest (fun y hy => h.kind_eq hy) (fun y hy => ?_)
    (fun y hy hop => ?_) (fun y hy hop hframe => h.row y hy hop hframe) hlt hx
  · rcases h.head y hy with hbare | ⟨-, -, hbare⟩
    · exact Head.span_of_bare hbare
    · have hhead : (s'.head y).bare = ({ s.head y with payload := .none } : Head).bare := hbare
      have hspan := Head.span_of_bare hhead
      exact hspan
  · refine (h.head y hy).resolve_right fun hname => ?_
    rw [hname.1.1] at hop
    cases hop

/-- What is done for its effect is done as before, in the same order. -/
theorem effects_eq (hG : s.Owner G) :
    (s'.bodyNodes G).filter (fun x => decide (x ∈ s.effects G)) = s.effects G := by
  have howner := hG.ownsBody hs
  have hGlt := hG.lt hs.toLinked
  have hold : (s'.bodyNodes G).filter (fun x => decide (x ∈ s.effects G)) =
      ((s'.bodyNodes G).filter fun c => c < s.size && s.kind c != .varList).filter
        fun x => decide (x ∈ s.effects G) := by
    rw [List.filter_filter]
    refine List.filter_congr fun x _ => ?_
    by_cases hx : x ∈ s.effects G
    · obtain ⟨hinside, hdone⟩ := (mem_effects ho.toForest).mp hx
      have hlist : s.kind x ≠ .varList := fun hkind =>
        not_droppable_of_performed hs ho hdone (.list hkind)
      simp [hx, hinside.lt hs.toLinked, hlist]
    · simp [hx]
  have hsub : ((s'.bodyNodes G).filter fun x => decide (x ∈ s.effects G)).Sublist (s.effects G) := by
    have hsub := (h.order G hGlt howner).filter fun x => decide (x ∈ s.effects G)
    rwa [← hold, filter_mem_effects] at hsub
  refine hsub.eq_of_length_le ?_
  -- Nothing is missing.
  refine (List.subperm_of_subset ((ho.toForest.nodup_bodyNodes G).filter _) fun x hx => ?_).length_le
  obtain ⟨hinside, hdone⟩ := (mem_effects ho.toForest).mp hx
  refine List.mem_filter.mpr ⟨?_, decide_eq_true hx⟩
  exact h.ordered.toForest.mem_bodyNodes.mpr (h.lasting G x howner hinside (.performed hdone))

/-- After a scan, what is not needed for the scopes it has found is not spared, and all else is. -/
theorem spares (hscan : s.Scanned) : s.Spares s' where
  evolves := h.evolves
  ordered := h.ordered
  effects _ hG := h.effects_eq hs ho hG
  performed x hx := by
    refine ⟨h.performed x hx, ?_⟩
    have hcase : ∃ p, s.parent? x = some p ∧ s.kind p ≠ .function := by
      rw [hasEffect_iff, isAlone_iff] at hx
      rcases hx with ⟨-, hparent, -⟩ | ⟨-, hparent⟩
      all_goals
        obtain ⟨p, hp, hkind⟩ := Option.map_eq_some_iff.mp hparent
        exact ⟨p, hp, by simp [hkind]⟩
    obtain ⟨p, hp, hkind⟩ := hcase
    exact h.outline_eq ho (parent?_lt hp)
      (not_inFrame_of_mem hs.toLinked ((hs.linked p x).mpr hp) hkind)
  binder x hwithin hkind hproperty := h.binder?_eq hs ho hscan hwithin hkind hproperty
  function f hf hkind hdeclared := by
    have hinside := ho.toForest.mem_bodyNodes.mp hf
    have hlt := hinside.lt hs.toLinked
    refine ⟨h.ordered.toForest.mem_bodyNodes.mpr ?_, ?_, h.text?_eq_of_declared hlt hdeclared⟩
    · exact h.lasting s.root f (.inr hs.root_kind) hinside (.outermost hinside hkind hdeclared)
    · rwa [h.isDeclaredFunction_eq hlt]
  constant G hG d hd hkind hparent := by
    have hinside := ho.toForest.mem_bodyNodes.mp hd
    obtain ⟨p, hp, -⟩ := hinside.parent hs.toLinked
    refine ⟨h.ordered.toForest.mem_bodyNodes.mpr ?_, ?_, ?_⟩
    · exact h.lasting G d (hG.ownsBody hs) hinside (.listed hkind hparent)
    · rw [hp]
      refine (h.link d p hp ⟨by simp [hkind], by simp [hkind], ?_, ?_, by simp [hkind]⟩).1
      · rw [parentKind?_of_parent hp] at hparent
        exact fun hlist => hparent (congrArg some hlist)
      · rintro ⟨-, hrole⟩
        have hexpression := (ho.admits hp).role .initializer hrole rfl
        rw [Head.isExpression, show (s.head d).kind = .declaration from hkind] at hexpression
        cases hexpression
    · exact h.text?_eq_of_kind (hinside.lt hs.toLinked) (by simp [hkind])
  pattern G hG d hd role root hcase hchild := by
    have hinside := ho.toForest.mem_bodyNodes.mp hd
    have hmem := mem_of_child? hchild
    rcases hcase with ⟨hkind, rfl⟩ | ⟨hkind, rfl⟩
    · have hpattern : s.IsPattern root := by
        refine (hs.formed d).patterns root hmem ?_
        rw [Head.binds, show (s.head d).kind = .declaration from hkind]
        exact beq_iff_eq.mpr (role?_of_child? hchild)
      refine ⟨h.ordered.toForest.mem_bodyNodes.mpr ?_, h.child?_names hs hkind hchild,
        h.boundNames_eq hs ho.toForest hpattern⟩
      exact h.lasting G d (hG.ownsBody hs) hinside (.patterned hkind hchild)
    · have hpattern : s.IsPattern root := by
        refine (hs.formed d).patterns root hmem ?_
        rw [Head.binds, show (s.head d).kind = .catchClause from hkind]
        exact beq_iff_eq.mpr (role?_of_child? hchild)
      refine ⟨h.ordered.toForest.mem_bodyNodes.mpr ?_, ?_, h.boundNames_eq hs ho.toForest hpattern⟩
      · exact h.lasting G d (hG.ownsBody hs) hinside (.construct (.inl hkind))
      · refine h.child? hs.toLinked (lt_of_mem_children hmem) (by rw [hkind]; rfl) hchild ?_
        exact hs.fast_of_inPattern hpattern.inPattern (by simp [hkind]) (by simp [hkind])
          (by simp [hkind])
  parameter G params root hG hchild hmem hname := by
    have hlist := hs.kind_params hG hchild
    have hpattern : s.IsPattern root := by
      refine (hs.formed params).patterns root hmem ?_
      rw [Head.binds, show (s.head params).kind = .list from hlist]
      exact beq_iff_eq.mpr (role?_of_child? hchild)
    refine ⟨?_, ?_, h.boundNames_eq hs ho.toForest hpattern⟩
    · exact h.child? hs.toLinked (lt_of_kind (by simp [hG])) (by rw [hG]; rfl) hchild
        (hs.fast_params hG hchild)
    · refine (h.ordered.linked params root).mpr (h.link root params (hs.parent?_of_mem hmem) ?_).1
      exact hs.fast_of_inPattern hpattern.inPattern (by simp [hlist]) (by simp [hlist]) fun _ => hname
  eval G hG hwithin heval := by
    obtain ⟨hwithin', hrow⟩ := h.eval_stays hs ho hscan hG hwithin heval
    refine ⟨hwithin', h.usesEval_of hs ho hscan hG hwithin heval, fun y hy => hrow y ?_,
      fun name hname => ?_⟩
    · exact hy.imp_right ho.toForest.mem_bodyNodes.mp
    · exact h.isLocal_of hs ho hG (hscan.not_idle_of_usesEval hG hwithin heval) hname

end Thins

end Store

/-! ### All rounds -/

variable {s : Store}

/-- A round takes away no more than what its scan has found to be unused. -/
theorem Unused.spares_round (hs : s.Sound) (ho : s.Ordered) :
    Gives round s fun _ s' => s.Spares s' := by
  have hevolves := evolves_scanTree hs
  have hordered := ho.scanTree
  refine (Unused.gives_round hs ho).mono fun _ s' h => ?_
  exact ((alike_scanTree s).spares hevolves hordered).trans
    (h.spares hevolves.sound hordered (scanned_scanTree ho.toForest hs)) hs ho

/-- Round after round, the removal of declarations takes away no more than what is unused. -/
theorem spares_removeUnused (hs : s.Sound) (ho : s.Ordered) :
    s.Spares (Transform.unused.run s) := by
  refine (Unused.gives_settle (I := fun s' => s'.Sound ∧ s.Spares s') (fun s₁ h₁ => ?_)
    ⟨hs, .refl hs ho⟩ false Unused.maxRounds).1.2
  refine (Unused.spares_round h₁.1 h₁.2.ordered).mono fun _ s₂ h₂ => ?_
  exact ⟨h₂.evolves.sound, h₁.2.trans h₂ hs ho⟩

/-- In a script that is accepted, whatever passes have run on it, the removal of declarations loses
no effect and no binding that is used. -/
theorem spares_run_foldl_run {source : String} {line : Nat} {t : Tree}
    (h : parseScript source line = .ok t) (transforms : List Transform) :
    let s := transforms.foldl Transform.run (.ofTree t)
    s.Spares (Transform.unused.run s) := by
  obtain ⟨hfits, hkind⟩ := fits_of_parseScript h
  exact spares_removeUnused (sound_of_parseScript h transforms)
    (Transform.ordered_foldl_run (ordered_ofTree hfits hkind) transforms)

/-- A list whose first and last declaration start with calls, in a function with an unused
parameter. -/
def unusedCalls : String :=
  "function f(a,b)\x7bvar c=g(),d,e=h(a);try\x7bi\x7dcatch(j)\x7b\x7dreturn a\x7d"

theorem spares_run_foldl_run_unusedCalls : ∃ t, parseScript unusedCalls 1 = .ok t ∧
    ∀ transforms : List Transform,
      let s := transforms.foldl Transform.run (.ofTree t)
      s.Spares (Transform.unused.run s) := by
  have haccepted : (parseScript unusedCalls 1).toOption.isSome := by decide +kernel
  cases hparse : parseScript unusedCalls 1 with
  | error fault =>
      rw [hparse] at haccepted
      cases haccepted
  | ok t => exact ⟨t, rfl, spares_run_foldl_run hparse⟩

end ScriptMin
