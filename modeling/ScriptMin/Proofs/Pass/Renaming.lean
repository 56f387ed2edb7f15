import ScriptMin.Proofs.Pass.Evaluation
import ScriptMin.Proofs.Pass.Privates
import ScriptMin.Proofs.Pass.Replacements
import ScriptMin.Proofs.Pass.Soundness
import ScriptMin.Proofs.Store.Naming
import ScriptMin.Proofs.Store.Sweeping

/-!
Renaming of local names. What replaces the name of a node depends on the functions around the node:
each of them adds replacements of its local names, from the outermost one to the innermost. Main
statement: the renamed tree differs in the names of bound variables only, and every name is bound
where it was bound.
-/

namespace ScriptMin

open Store

/-- A node whose text stays is the same. -/
theorem Node.withText_self {n : Node} {name : String} (hname : n.head.text? = some name) :
    n.withText name = n := by
  rw [Head.text?] at hname
  split at hname
  case h_1 text hpayload =>
      obtain rfl := Option.some_inj.mp hname
      rw [withText, ← hpayload]
  case h_2 => cases hname

variable {s s' : Store} {id F G c d p x : NodeId} {name new : String} {outer : Locals.Replacements}

namespace Locals

/-! ### Replacements in a tree -/

def replacementsBelow (s : Store) (id : NodeId) (outer : Replacements) : Replacements :=
  match s.kind id with
  | .function =>
    match s.scope? id with
    | some scope => replacementsIn scope outer
    | none => outer
  | _ => outer

def replacementsAt (s : Store) (id : NodeId) : Replacements :=
  (s.ancestry id).foldr (replacementsBelow s) []

def replacementsAround (s : Store) (id : NodeId) : Replacements :=
  ((s.parent? id).map (replacementsAt s)).getD []

def replacementsFor (s : Store) (id : NodeId) : Replacements :=
  if s.IsDeclared id then replacementsAround s id else replacementsAt s id

theorem replacementsBelow_of_kind (hkind : s.kind id ≠ .function) :
    replacementsBelow s id outer = outer := by
  rw [replacementsBelow]
  split
  · exact absurd ‹_› hkind
  · rfl

theorem replacementsBelow_function {scope : Scope} (hkind : s.kind id = .function)
    (hscope : s.scope? id = some scope) :
    replacementsBelow s id outer = replacementsIn scope outer := by
  rw [replacementsBelow, hkind]
  simp only [hscope]

theorem replacementsAt_eq (hs : s.Forest) (id : NodeId) :
    replacementsAt s id = replacementsBelow s id (replacementsAround s id) := by
  cases hp : s.parent? id with
  | none => rw [replacementsAt, ancestry_of_none hp, replacementsAround, hp]; rfl
  | some p => rw [replacementsAt, hs.ancestry_of_parent hp, replacementsAround, hp]; rfl

theorem replacementsAround_of_mem (hs : s.Linked) (hc : c ∈ s.children id) :
    replacementsAround s c = replacementsAt s id := by
  rw [replacementsAround, hs.parent?_of_mem hc]
  rfl

/-- Around the nodes inside a body are the replacements of the body. -/
theorem replacementsAround_of_inside (hs : s.Forest) (hx : s.Inside G x) :
    replacementsAround s x = replacementsAt s G := by
  induction hx with
  | child hc => exact replacementsAround_of_mem hs.toLinked hc
  | step _ hfunction hc ih =>
      rw [replacementsAround_of_mem hs.toLinked hc, replacementsAt_eq hs,
        replacementsBelow_of_kind hfunction, ih]

theorem replacementsFor_of_inside (hs : s.Forest) (hx : s.Inside G x)
    (hdeclared : s.kind x = .function → s.IsDeclared x) :
    replacementsFor s x = replacementsAt s G := by
  rw [replacementsFor]
  split
  · exact replacementsAround_of_inside hs hx
  case isFalse hnot =>
      rw [replacementsAt_eq hs, replacementsBelow_of_kind fun hkind => hnot (hdeclared hkind)]
      exact replacementsAround_of_inside hs hx

theorem replacementsAt_root (hs : s.Forest) (h : s.Sound) : replacementsAt s s.root = [] := by
  rw [replacementsAt_eq hs, replacementsBelow_of_kind (by simp [h.root_kind]), replacementsAround,
    hs.root_parent]
  rfl

/-! ### Which nodes get new names -/

theorem mem_renameAt : (x, new) ∈ renameAt s outer id ↔
    x = id ∧ ∃ name, s.text? id = some name ∧ outer.lookup name = some new ∧ new ≠ name := by
  rw [renameAt]
  cases s.text? id with
  | none => simp
  | some name =>
      cases hlookup : outer.lookup name with
      | none => simp [hlookup]
      | some other =>
          simp only [Option.some.injEq, exists_eq_left', hlookup]
          split
          case isTrue heq =>
              simp only [List.not_mem_nil, false_iff, not_and, not_not]
              rintro - rfl
              exact heq
          case isFalse hne =>
              rw [List.mem_singleton, Prod.mk.injEq]
              constructor
              · rintro ⟨rfl, rfl⟩
                exact ⟨rfl, rfl, hne⟩
              · rintro ⟨rfl, rfl, -⟩
                exact ⟨rfl, rfl⟩

/-- A node gets the name that its replacements give it, if that is another one. -/
def Replaces (s : Store) (x : NodeId) (new : String) : Prop :=
  s.NamesVariable x ∧ ∃ name, s.text? x = some name ∧
    (replacementsFor s x).lookup name = some new ∧ new ≠ name

/-- One step down: the node itself, and what is below. -/
theorem mem_renamings_succ (hs : s.Forest) (h : s.Sound) {depth : Nat} :
    (x, new) ∈ renamings s (depth + 1) (replacementsAround s id) id ↔
      x = id ∧ Replaces s id new ∨
        ∃ c ∈ s.children id, (x, new) ∈ renamings s depth (replacementsAround s c) c := by
  have hbelow : ∀ {outer}, replacementsAt s id = outer →
      ((x, new) ∈ (s.children id).flatMap (renamings s depth outer) ↔
        ∃ c ∈ s.children id, (x, new) ∈ renamings s depth (replacementsAround s c) c) := by
    rintro _ rfl
    rw [List.mem_flatMap]
    refine exists_congr fun c => and_congr_right fun hc => ?_
    rw [replacementsAround_of_mem hs.toLinked hc]
  have hown : ∀ {outer}, replacementsFor s id = outer →
      ((s.text? id).isSome → s.NamesVariable id) →
      ((x, new) ∈ renameAt s outer id ↔ x = id ∧ Replaces s id new) := by
    rintro _ rfl hnames
    rw [mem_renameAt, Replaces]
    refine and_congr_right fun _ => (and_iff_right_of_imp ?_).symm
    rintro ⟨name, hname, -⟩
    exact hnames (Option.isSome_iff_exists.mpr ⟨name, hname⟩)
  have hnothing : ¬ s.NamesVariable id → ¬ (x = id ∧ Replaces s id new) := fun hnot hand =>
    hnot hand.2.1
  have hat := replacementsAt_eq hs id
  rw [renamings]
  split
  case h_1 hkind =>
      have hfunction : ∀ {inner}, replacementsAt s id = inner →
          ((x, new) ∈ (if Tree.isAccessor (s.head id) then [] else renameAt s
              (if Tree.isDeclaredFunction (s.head id) then replacementsAround s id else inner) id) ++
              (s.children id).flatMap (renamings s depth inner) ↔
            x = id ∧ Replaces s id new ∨
              ∃ c ∈ s.children id, (x, new) ∈ renamings s depth (replacementsAround s c) c) := by
        intro inner hinner
        rw [List.mem_append, hbelow hinner]
        refine or_congr_left ?_
        by_cases haccessor : Tree.isAccessor (s.head id)
        · rw [if_pos haccessor]
          refine iff_of_false List.not_mem_nil (hnothing fun hnames => ?_)
          cases hnames with
          | name hname => simp [hkind] at hname
          | declaration hname => simp [hkind] at hname
          | function _ hnot => rw [hnot] at haccessor; cases haccessor
        · rw [if_neg haccessor]
          refine hown ?_ fun hnamed => .function hkind (by simpa using haccessor) hnamed
          rw [replacementsFor, hinner]
          by_cases hdeclared : Tree.isDeclaredFunction (s.head id)
          · rw [if_pos hdeclared, if_pos ⟨hkind, hdeclared⟩]
          · rw [if_neg hdeclared, if_neg fun hand => hdeclared hand.2]
      rw [replacementsBelow, hkind] at hat
      dsimp only at hat ⊢
      cases hscope : s.scope? id with
      | none => exact hfunction (by rw [hat, hscope])
      | some scope => exact hfunction (by rw [hat, hscope])
  case h_2 hkind =>
      have hfor : replacementsFor s id = replacementsAround s id := by
        rw [replacementsFor, hat, replacementsBelow_of_kind (by simp [hkind]), ite_self]
      rw [h.children_of_key (by rw [hkind]; rfl)]
      simp only [List.not_mem_nil, false_and, exists_false, or_false]
      split
      case isTrue hproperty =>
          refine iff_of_false List.not_mem_nil (hnothing fun hnames => ?_)
          cases hnames with
          | name _ hnot => rw [hnot] at hproperty; cases hproperty
          | declaration hname => simp [hkind] at hname
          | function hname => simp [hkind] at hname
      case isFalse hproperty =>
          exact hown hfor fun _ => .name hkind (by simpa using hproperty)
  case h_3 hkind =>
      have hfor : replacementsFor s id = replacementsAround s id := by
        rw [replacementsFor, hat, replacementsBelow_of_kind (by simp [hkind]), ite_self]
      rw [List.mem_append, hown hfor fun hnamed => .declaration hkind hnamed, hbelow]
      rw [hat, replacementsBelow_of_kind (by simp [hkind])]
  case h_4 hfunction hname hdeclaration =>
      rw [hbelow (by rw [hat, replacementsBelow_of_kind hfunction]), or_iff_right]
      refine hnothing fun hnames => ?_
      cases hnames with
      | name hkind => exact hname hkind
      | declaration hkind => exact hdeclaration hkind
      | function hkind => exact hfunction hkind

theorem within_iff_child (hs : s.Linked) :
    s.Within x id ↔ x = id ∨ ∃ c ∈ s.children id, s.Within x c := by
  constructor
  · intro h
    rcases Relation.ReflTransGen.cases_tail h with heq | ⟨c, hwithin, hc⟩
    · exact .inl heq.symm
    · exact .inr ⟨c, (hs.linked id c).mpr hc, hwithin⟩
  · rintro (rfl | ⟨c, hc, hwithin⟩)
    · exact .refl
    · exact hwithin.trans (within_of_parent (hs.parent?_of_mem hc))

/-- The renaming of a tree goes as deep as the tree. -/
theorem mem_renamings (hs : s.Forest) (h : s.Sound) (id : NodeId) : ∀ {depth : Nat},
    s.size < depth + s.lineLength id →
      ((x, new) ∈ renamings s depth (replacementsAround s id) id ↔
        s.Within x id ∧ Replaces s x new) := by
  induction id using hs.descend with
  | step id ih =>
      intro depth hdepth
      have hle : s.lineLength id ≤ s.size := lineLength_le_size
      obtain ⟨depth, rfl⟩ : ∃ n, depth = n + 1 := ⟨depth - 1, by omega⟩
      rw [mem_renamings_succ hs h, within_iff_child hs.toLinked, or_and_right]
      refine or_congr (and_congr_right fun heq => by rw [heq]) ?_
      have hchild : ∀ c ∈ s.children id, ((x, new) ∈ renamings s depth (replacementsAround s c) c ↔
          s.Within x c ∧ Replaces s x new) := by
        intro c hc
        have hlt := hs.lineLength_lt (hs.parent?_of_mem hc)
        exact ih c hc (by omega)
      constructor
      · rintro ⟨c, hc, hmem⟩
        obtain ⟨hwithin, hnew⟩ := (hchild c hc).mp hmem
        exact ⟨⟨c, hc, hwithin⟩, hnew⟩
      · rintro ⟨⟨c, hc, hwithin⟩, hnew⟩
        exact ⟨c, hc, (hchild c hc).mpr ⟨hwithin, hnew⟩⟩

/-! ### The renamed tree -/

def renamedStore (s : Store) : Store :=
  (renamings s (s.size + 1) [] s.root).foldl (fun s item => s.setText item.1 item.2) s

theorem mem_renamings_root (hs : s.Forest) (h : s.Sound) :
    (x, new) ∈ renamings s (s.size + 1) [] s.root ↔ s.Within x s.root ∧ Replaces s x new := by
  have haround : replacementsAround s s.root = [] := by
    rw [replacementsAround, hs.root_parent]
    rfl
  have hmem := @mem_renamings s x new hs h s.root (s.size + 1) (by omega)
  rwa [haround] at hmem

def newName (s : Store) (x : NodeId) : String := renamed (replacementsFor s x) (s.text x)

/-- Every node of the tree that names a variable gets the name that its replacements give it, and
other nodes stay. -/
theorem node_renamedStore (hs : s.Forest) (h : s.Sound) (x : NodeId) :
    (renamedStore s).size = s.size ∧ (renamedStore s).chosenRoot = s.chosenRoot ∧
    (s.Within x s.root ∧ s.NamesVariable x →
      (renamedStore s).node x = (s.node x).withText (newName s x)) ∧
    (¬ (s.Within x s.root ∧ s.NamesVariable x) → (renamedStore s).node x = s.node x) := by
  have hlt : ∀ item ∈ renamings s (s.size + 1) [] s.root, item.1 < s.size := by
    rintro ⟨y, new⟩ hitem
    obtain ⟨hwithin, hnames, -⟩ := (mem_renamings_root hs h).mp hitem
    refine lt_of_kind ?_
    cases hnames with
    | name hkind | declaration hkind | function hkind => simp [hkind]
  obtain ⟨hsize, hroot, hkept, hnew⟩ := node_foldl_setText x Prod.snd hlt
  refine ⟨hsize, hroot, fun hand => ?_, fun hnot => hkept fun hmem => ?_⟩
  · have htext := hand.2.text?_eq h
    by_cases hmem : x ∈ (renamings s (s.size + 1) [] s.root).map Prod.fst
    · refine hnew _ hmem ?_
      rintro ⟨y, new⟩ hitem rfl
      obtain ⟨-, -, name, hname, hlookup, -⟩ := (mem_renamings_root hs h).mp hitem
      obtain rfl := Option.some_inj.mp (hname.symm.trans htext)
      rw [newName, renamed, hlookup]
      rfl
    · have hsame : newName s x = s.text x := by
        rw [newName, renamed]
        cases hlookup : (replacementsFor s x).lookup (s.text x) with
        | none => rfl
        | some new =>
            by_contra hne
            refine hmem (List.mem_map_of_mem (f := Prod.fst) ((mem_renamings_root hs h).mpr
              ⟨hand.1, hand.2, s.text x, htext, hlookup, hne⟩))
      rw [hsame]
      exact (hkept hmem).trans (Node.withText_self htext).symm
  · obtain ⟨⟨y, new⟩, hitem, rfl⟩ := List.mem_map.mp hmem
    obtain ⟨hwithin, hnames, -⟩ := (mem_renamings_root hs h).mp hitem
    exact hnot ⟨hwithin, hnames⟩

theorem head_renamedStore (hs : s.Forest) (h : s.Sound) (hwithin : s.Within x s.root)
    (hx : s.NamesVariable x) :
    (renamedStore s).head x = { s.head x with payload := .text (newName s x) } := by
  rw [head, (node_renamedStore hs h x).2.2.1 ⟨hwithin, hx⟩]
  rfl

theorem head_renamedStore_of_not (hs : s.Forest) (h : s.Sound)
    (hx : ¬ (s.Within x s.root ∧ s.NamesVariable x)) : (renamedStore s).head x = s.head x := by
  rw [head, (node_renamedStore hs h x).2.2.2 hx]
  rfl

theorem text_renamedStore (hs : s.Forest) (h : s.Sound) (hwithin : s.Within x s.root)
    (hx : s.NamesVariable x) : (renamedStore s).text x = newName s x := by
  rw [text, head_renamedStore hs h hwithin hx]
  rfl

/-- Nothing but texts is new. -/
theorem reworded_renamedStore (hs : s.Forest) (h : s.Sound) : s.Reworded (renamedStore s) := by
  have hnode : ∀ x, (renamedStore s).node x = s.node x ∨
      s.NamesVariable x ∧ (renamedStore s).node x = (s.node x).withText (newName s x) := by
    intro x
    obtain ⟨-, -, hnew, hkept⟩ := node_renamedStore hs h x
    by_cases hx : s.Within x s.root ∧ s.NamesVariable x
    · exact .inr ⟨hx.2, hnew hx⟩
    · exact .inl (hkept hx)
  refine ⟨(node_renamedStore hs h s.root).1, ?_, funext fun x => ?_, funext fun x => ?_,
    fun x => ?_, fun x => ?_⟩
  · rw [root, (node_renamedStore hs h s.root).2.1]
    rfl
  all_goals rcases hnode x with heq | ⟨hnames, heq⟩
  · rw [parent?, heq]; rfl
  · rw [parent?, heq]; rfl
  · rw [children, heq]; rfl
  · rw [children, heq]; rfl
  · rw [head, heq]; rfl
  · rw [head, heq]; rfl
  · rw [text?, head, heq]; rfl
  · rw [hnames.named h, text?, head, heq]; rfl

/-! ### Local names -/

/-- Every body keeps its local names under their new names. -/
theorem isLocal_renamed (hs : s.Forest) (h : s.Sound) (hs' : s'.Forest) (h' : s'.Sound)
    (hsame : s.Reworded s') (htext : ∀ x, s.Within x s.root → s.NamesVariable x →
      s'.text x = newName s x) (hF : s.Owner F) (hwithin : s.Within F s.root) :
    (s'.view F).scope.isLocal new ↔
      ∃ name, (s.view F).scope.isLocal name ∧ new = renamed (replacementsAt s F) name := by
  have howner := h.ownsBody hF
  have hnew : ∀ d, s.Declares F d → s'.text d = renamed (replacementsAt s F) (s.text d) := by
    intro d hd
    have hplace := hd.cases_inside h howner
    have hbelow : s.Within d F := by
      rcases hplace with ⟨rfl, -⟩ | ⟨hinside, -⟩
      · exact .refl
      · exact hinside.within hs.toLinked
    rw [htext d (hbelow.trans hwithin) (hd.namesVariable h), newName]
    rcases hplace with ⟨rfl, -, hdeclared⟩ | ⟨hinside, hdeclared⟩
    · rw [replacementsFor, if_neg hdeclared]
    · rw [replacementsFor_of_inside hs hinside hdeclared]
  rw [isLocal_scope hs' h' (h'.ownsBody (hsame.owner_iff.mpr hF))]
  simp only [isLocal_scope hs h howner, hsame.declares_iff]
  constructor
  · rintro ⟨d, hd, rfl⟩
    exact ⟨s.text d, ⟨d, hd, rfl⟩, hnew d hd⟩
  · rintro ⟨_, ⟨d, hd, rfl⟩, rfl⟩
    exact ⟨d, hd, hnew d hd⟩

/-! ### Binders -/

section

variable (hs : s.Forest) (h : s.Sound) (hscan : s.Scanned)

include hs h hscan

/-- A name is replaced as the function says that binds it, and a name that no function binds
stays. -/
theorem renamed_replacementsAt (hF : s.Owner F) (hwithin : s.Within F s.root) :
    renamed (replacementsAt s F) name = match s.bindingFunction? name F with
      | some G => renamed (replacementsAt s G) name
      | none => name := by
  refine hs.owner_induction (motive := fun F => renamed (replacementsAt s F) name =
    match s.bindingFunction? name F with
      | some G => renamed (replacementsAt s G) name
      | none => name) ?_ ?_ hF hwithin
  · rw [replacementsAt_root hs h, bindingFunction?_root hs h]
    rfl
  · intro G F _ hG hkind hinside ih
    have hFwithin := (hinside.within hs.toLinked).trans hG
    by_cases hlocal : (s.view F).scope.isLocal name
    · rw [bindingFunction?_of_isLocal hs hscan hkind hFwithin hlocal]
    · rw [bindingFunction?_of_inside hs hscan hinside hFwithin fun _ => hlocal, ← ih,
        replacementsAt_eq hs, replacementsBelow_function hkind (hscan F (.inr hkind) hFwithin),
        replacementsAround_of_inside hs hinside, renamed, renamed,
        lookup_replacementsIn_of_not_isLocal hlocal]

variable (hs' : s'.Forest) (h' : s'.Sound) (hscan' : s'.Scanned) (hsame : s.Reworded s')
  (htext : ∀ x, s.Within x s.root → s.NamesVariable x → s'.text x = newName s x)

include hs' h' hscan' hsame htext

/-- What a body knows as a name is bound under its new name where it was bound. No local name of a
function between them has got the new name, since the function uses the old one and does not
declare it. -/
theorem bindingFunction?_renamed (hF : s.Owner F) (hwithin : s.Within F s.root)
    (hknown : (s.view F).scope.isLocal name ∨ (s.view F).scope.Shares name) :
    s'.bindingFunction? (renamed (replacementsAt s F) name) F = s.bindingFunction? name F := by
  refine hs.owner_induction (motive := fun F =>
    (s.view F).scope.isLocal name ∨ (s.view F).scope.Shares name →
      s'.bindingFunction? (renamed (replacementsAt s F) name) F = s.bindingFunction? name F)
    ?_ ?_ hF hwithin hknown
  · intro _
    rw [bindingFunction?_root hs h, ← hsame.root_eq, bindingFunction?_root hs' h']
  · intro G F hG hGwithin hkind hinside ih hknown
    have hFwithin := (hinside.within hs.toLinked).trans hGwithin
    have hkind' : s'.kind F = .function := hsame.kind_eq ▸ hkind
    have hFwithin' : s'.Within F s'.root := by rwa [hsame.within_iff, hsame.root_eq]
    by_cases hlocal : (s.view F).scope.isLocal name
    · rw [bindingFunction?_of_isLocal hs hscan hkind hFwithin hlocal]
      refine bindingFunction?_of_isLocal hs' hscan' hkind' hFwithin' ?_
      exact (isLocal_renamed hs h hs' h' hsame htext (.inr hkind) hFwithin).mpr ⟨name, hlocal, rfl⟩
    · have hshares := hknown.resolve_left hlocal
      have hat : replacementsAt s F = replacementsIn (s.view F).scope (replacementsAt s G) := by
        rw [replacementsAt_eq hs, replacementsBelow_function hkind (hscan F (.inr hkind) hFwithin),
          replacementsAround_of_inside hs hinside]
      have hsame_name : renamed (replacementsAt s F) name = renamed (replacementsAt s G) name := by
        rw [hat, renamed, lookup_replacementsIn_of_not_isLocal hlocal, renamed]
      rw [bindingFunction?_of_inside hs hscan hinside hFwithin fun _ => hlocal,
        bindingFunction?_of_inside hs' hscan' (hsame.inside hinside) hFwithin', hsame_name]
      · refine ih ?_
        by_cases hlocalG : (s.view G).scope.isLocal name
        · exact .inl hlocalG
        · have hmeets := hinside.meets h (h.ownsBody hG) (by rw [hkind]; rfl)
          exact .inr (shares_nested hs h (h.ownsBody hG) hmeets hkind hshares hlocalG)
      · intro _ hcaptured
        obtain ⟨other, hother, heq⟩ :=
          (isLocal_renamed hs h hs' h' hsame htext (.inr hkind) hFwithin).mp hcaptured
        obtain ⟨new, hnew, -, hfree⟩ := @lookup_replacementsIn _ (replacementsAt s G) _ hother
        obtain ⟨entry, hentry, hentry_name⟩ := List.mem_map.mp hshares
        refine hfree entry hentry ?_
        rw [hsame_name, hat, renamed, renamed, hnew, Option.getD_some] at heq
        rw [← heq, hentry_name, renamed]

/-- A name is bound where it was bound. -/
theorem functionOf?_renamed (hwithin : s.Within x s.root) (hx : s.NamesVariable x) :
    s'.functionOf? x = s.functionOf? x := by
  have hwithin' : s'.Within x s'.root := by rwa [hsame.within_iff, hsame.root_eq]
  by_cases hown : s.kind x = .function ∧ ¬ s.IsDeclared x
  · obtain ⟨hkind, hdeclared⟩ := hown
    have hlocal := hx.isLocal_own hs h hkind hdeclared
    rw [functionOf?, functionOf?, if_neg hdeclared, if_neg (hsame.isDeclared_iff.not.mpr hdeclared),
      htext x hwithin hx, newName, replacementsFor, if_neg hdeclared]
    exact bindingFunction?_renamed hs h hscan hs' h' hscan' hsame htext (.inr hkind) hwithin
      (.inl hlocal)
  · have hdeclared : s.kind x = .function → s.IsDeclared x := fun hkind => by
      by_contra hnot
      exact hown ⟨hkind, hnot⟩
    have hne : x ≠ s.root := h.ne_root_of_kind (by
      cases hx with
      | name hkind | declaration hkind | function hkind => simp [hkind])
    obtain ⟨G, hG, hGwithin, hinside⟩ := hs.exists_inside hwithin hne
    rw [functionOf?_of_inside hs hscan hinside hwithin hdeclared,
      functionOf?_of_inside hs' hscan' (hsame.inside hinside) hwithin', htext x hwithin hx,
      newName, replacementsFor_of_inside hs hinside hdeclared]
    · exact bindingFunction?_renamed hs h hscan hs' h' hscan' hsame htext hG hGwithin
        (hx.local_or_shared hs h (h.ownsBody hG) hinside hdeclared)
    · rw [hsame.kind_eq, hsame.isDeclared_iff]
      exact hdeclared

omit hs' h' hscan' hsame htext in
/-- The new name of a node is the one that the function gives it that binds it. -/
theorem newName_eq (hwithin : s.Within x s.root) (hx : s.NamesVariable x) :
    newName s x = match s.functionOf? x with
      | some F => renamed (replacementsAt s F) (s.text x)
      | none => s.text x := by
  by_cases hown : s.kind x = .function ∧ ¬ s.IsDeclared x
  · obtain ⟨hkind, hdeclared⟩ := hown
    rw [newName, replacementsFor, functionOf?, if_neg hdeclared, if_neg hdeclared]
    exact renamed_replacementsAt hs h hscan (.inr hkind) hwithin
  · have hdeclared : s.kind x = .function → s.IsDeclared x := fun hkind => by
      by_contra hnot
      exact hown ⟨hkind, hnot⟩
    have hne : x ≠ s.root := h.ne_root_of_kind (by
      cases hx with
      | name hkind | declaration hkind | function hkind => simp [hkind])
    obtain ⟨G, hG, hGwithin, hinside⟩ := hs.exists_inside hwithin hne
    rw [functionOf?_of_inside hs hscan hinside hwithin hdeclared, newName,
      replacementsFor_of_inside hs hinside hdeclared]
    exact renamed_replacementsAt hs h hscan hG hGwithin

end

end Locals

/-! ### The pass -/

/-- Two stores are variants of each other: they differ in the names of variables that functions
bind, and every name is bound by the function that bound it. -/
structure Store.AlphaVariant (s s' : Store) (rename : NodeId → String → String) : Prop where
  size_eq : s'.size = s.size
  root_eq : s'.root = s.root
  parent_eq : s'.parent? = s.parent?
  children_eq : s'.children = s.children
  /-- A function gives its local names different new names, none of which is reserved. -/
  scope : ∀ F, s.kind F = .function → s.Within F s.root →
    ∃ scope, s.scanTree.scope? F = some scope ∧
      Set.InjOn (rename F) {name | scope.isLocal name} ∧
      ∀ name, scope.isLocal name → rename F name ∉ Locals.unusable
  /-- A name that a function binds gets the name that the function gives it. -/
  bound : ∀ F x, s.Within x s.root → s.NamesVariable x → s.scanTree.functionOf? x = some F →
    s'.head x = { s.head x with payload := .text (rename F (s.text x)) }
  /-- Other names and all other nodes stay. -/
  kept : ∀ x, (s.Within x s.root → s.NamesVariable x → s.scanTree.functionOf? x = none) →
    s'.head x = s.head x
  /-- Another scan finds that every name is bound where it was bound. -/
  binder : ∀ x, s.Within x s.root → s.NamesVariable x →
    s'.scanTree.functionOf? x = s.scanTree.functionOf? x

theorem Store.Alike.reworded (h : s.Alike s') : s.Reworded s' where
  size_eq := h.size_eq
  root_eq := h.root_eq
  parent_eq := h.parent_eq
  children_eq := h.children_eq
  head_eq x := by rw [h.head_eq]
  isSome_text? x := by rw [text?, text?, h.head_eq]

theorem Store.Reworded.trans {s'' : Store} (h : s.Reworded s') (h' : s'.Reworded s'') :
    s.Reworded s'' where
  size_eq := h'.size_eq.trans h.size_eq
  root_eq := h'.root_eq.trans h.root_eq
  parent_eq := h'.parent_eq.trans h.parent_eq
  children_eq := h'.children_eq.trans h.children_eq
  head_eq x := by rw [h'.head_eq, h.head_eq]
  isSome_text? x := (h'.isSome_text? x).trans (h.isSome_text? x)

/-- A renaming that comes to its end gives the tree its new names. -/
theorem gives_renamedStore (s : Store) : Pass.Gives (fun _ => True) renameLocals s fun _ s' =>
    s' = Locals.renamedStore s.scanTree := by
  rw [renameLocals, Pass.gives_modify_bind, Pass.gives_get_bind]
  split
  · exact Pass.gives_refuse trivial _
  · dsimp only
    rw [Pass.gives_set_bind]
    exact Pass.gives_pure trivial rfl

namespace Locals

theorem forest_renamedStore (hs : s.Forest) : (renamedStore s).Forest :=
  List.foldlRecOn _ _ hs fun _ hs item _ => hs.setText item.2

theorem sound_renamedStore (h : s.Sound) : (renamedStore s).Sound :=
  sound_foldl_setText h (fun _ => carriesName_of_mem_renamings) Prod.snd

theorem alphaVariant_renamedStore (hs : s.Forest) (h : s.Sound) :
    s.AlphaVariant (renamedStore s.scanTree) fun F =>
      renamed (replacementsAt s.scanTree F) := by
  have halike := (alike_scanTree s).reworded
  have hscan := scanned_scanTree hs h
  have hs₁ : s.scanTree.Forest := hs.scan
  have h₁ : s.scanTree.Sound := (evolves_scanTree h).sound
  have hsame := reworded_renamedStore hs₁ h₁
  have hall := halike.trans hsame
  have hhead : ∀ x, s.scanTree.head x = s.head x := fun x => congrFun (alike_scanTree s).head_eq x
  have hwithin : ∀ {x}, s.Within x s.root → s.scanTree.Within x s.scanTree.root := by
    intro x hx
    rwa [halike.within_iff, halike.root_eq]
  refine ⟨hall.size_eq, hall.root_eq, hall.parent_eq, hall.children_eq, fun F hF hFwithin => ?_,
    fun F x hx hnames hF => ?_, fun x hx => ?_, fun x hx hnames => ?_⟩
  · have hkind : s.scanTree.kind F = .function := by rw [halike.kind_eq, hF]
    have hscope := hscan F (.inr hkind) (hwithin hFwithin)
    have hat : replacementsAt s.scanTree F = replacementsIn (s.scanTree.view F).scope
        (replacementsAround s.scanTree F) := by
      rw [replacementsAt_eq hs₁, replacementsBelow_function hkind hscope]
    refine ⟨_, hscope, fun x hx y hy heq => ?_, fun name hlocal => ?_⟩
    · rw [hat] at heq
      exact renamed_replacementsIn_inj hx hy heq
    · obtain ⟨new, hnew, hfree, -⟩ :=
        @lookup_replacementsIn _ (replacementsAround s.scanTree F) _ hlocal
      rw [hat, renamed, hnew]
      exact hfree
  · have hnames' := halike.namesVariable_iff.mpr hnames
    rw [head_renamedStore hs₁ h₁ (hwithin hx) hnames', newName_eq hs₁ h₁ hscan (hwithin hx) hnames',
      hF, hhead, text, hhead]
    rfl
  · by_cases hand : s.scanTree.Within x s.scanTree.root ∧ s.scanTree.NamesVariable x
    · obtain ⟨hx', hnames'⟩ := hand
      rw [halike.within_iff, halike.root_eq] at hx'
      have hnone := hx hx' (halike.namesVariable_iff.mp hnames')
      have htext := hnames'.text?_eq h₁
      rw [head, (node_renamedStore hs₁ h₁ x).2.2.1 ⟨hwithin hx', hnames'⟩,
        newName_eq hs₁ h₁ hscan (hwithin hx') hnames', hnone, Node.withText_self htext]
      exact hhead x
    · rw [head_renamedStore_of_not hs₁ h₁ hand, hhead]
  · have halike' := alike_scanTree (renamedStore s.scanTree)
    have hs₂ := forest_renamedStore hs₁
    have h₂ := sound_renamedStore h₁
    refine functionOf?_renamed hs₁ h₁ hscan hs₂.scan (evolves_scanTree h₂).sound
      (scanned_scanTree hs₂ h₂) (hsame.trans halike'.reworded) ?_ (hwithin hx)
      (halike.namesVariable_iff.mpr hnames)
    intro y hy hnames'
    rw [text, halike'.head_eq]
    exact text_renamedStore hs₁ h₁ hy hnames'

end Locals

/-- The renaming of local names is an alpha conversion. Whatever passes have run on a script, if the
renaming comes to its end, the tree differs in the names of bound variables only, each function has
given its local names different names that are not reserved, and every name is bound by the function
that bound it, or by none. -/
theorem renameLocals_alphaVariant {source : String} {line : Nat} {t : Tree} {changed : Bool}
    {s' : Store} (hparse : parseScript source line = .ok t) (transforms : List Transform)
    (hrun : renameLocals.run.run (transforms.foldl Transform.run (.ofTree t)) = (.ok changed, s')) :
    ∃ rename, (transforms.foldl Transform.run (.ofTree t)).AlphaVariant s' rename := by
  have h := sound_of_parseScript hparse transforms
  have hs := Transform.forest_foldl_run (forest_ofTree t) transforms
  generalize transforms.foldl Transform.run (.ofTree t) = s at *
  have hrenamed := (gives_renamedStore s).2
  rw [hrun] at hrenamed
  have heq : s' = Locals.renamedStore s.scanTree := hrenamed changed rfl
  exact ⟨_, heq ▸ Locals.alphaVariant_renamedStore hs h⟩

/-- A function in a function that uses a parameter of the outer one and a name that is free, which the
parameter must not get as its new name. -/
def freeUse : String := "function f(left){return function(right){return left+right+a}}"

theorem renameLocals_alphaVariant_freeUse :
    ∃ t s' rename, parseScript freeUse 1 = .ok t ∧
      renameLocals.run.run (Store.ofTree t) = (.ok true, s') ∧
      (Store.ofTree t).AlphaVariant s' rename ∧
      (Store.ofTree t).scanTree.functionOf? 13 = some 1 ∧ rename 1 "left" = "b" := by
  -- The script is parsed and renamed once for all that is looked up.
  have hlookup : (parseScript freeUse 1).toOption.isSome ∧
      let s := Store.ofTree (treeOf freeUse)
      (renameLocals.run.run s).1.toOption = some true ∧
        (renameLocals.run.run s).2.text 13 = "b" ∧ s.scanTree.functionOf? 13 = some 1 ∧
        s.kind 13 = .identifier ∧ Locals.isPropertyName s 13 = false ∧ s.text 13 = "left" ∧
        13 ∈ s.postorderFrom 9 s.root := by
    decide +kernel
  obtain ⟨hparse, hok, htext, hfunction, hkind, hproperty, hleft, hmem⟩ := hlookup
  rcases hrun : renameLocals.run.run (Store.ofTree (treeOf freeUse)) with ⟨result, s'⟩
  rw [hrun] at hok htext
  obtain rfl : result = .ok true := by
    cases result with
    | error fault => cases hok
    | ok changed => rw [Option.some_inj.mp hok]
  have halpha := @renameLocals_alphaVariant freeUse 1 _ true s' (parseScript_treeOf hparse) []
  rw [List.foldl_nil] at halpha
  obtain ⟨rename, hvariant⟩ := halpha hrun
  refine ⟨_, s', rename, parseScript_treeOf hparse, hrun, hvariant, hfunction, ?_⟩
  have hwithin := within_of_mem_postorderFrom (forest_ofTree _).toLinked hmem
  have hhead := hvariant.bound 1 13 hwithin (.name hkind hproperty) hfunction
  rw [text, hhead, hleft] at htext
  exact htext

end ScriptMin
