import ScriptMin.Pass.Privates
import ScriptMin.Pass.Substitution
import ScriptMin.Proofs.Pass.DeclarationForests
import ScriptMin.Proofs.Pass.ReductionForests

/-!
Every pass leaves a forest behind, whether it comes to its end or stops with an error, and so does
every sequence of passes. Main statement: the store of a tree stays a tree under all of them.
-/

namespace ScriptMin

open Store

variable {α β : Type} {s s' : Store} {id : NodeId}

/-! ### Passes that may end early -/

namespace Pass

variable {I : Store → Prop} {Q R : α → Store → Prop} {P : β → Store → Prop}

/-- A pass leaves a store behind of which something holds, and something more holds of its result
if it comes to its end. -/
def Gives (I : Store → Prop) (m : Pass α) (s : Store) (Q : α → Store → Prop) : Prop :=
  Edit.Gives m.run s fun result s' => I s' ∧ ∀ a, result = .ok a → Q a s'

theorem Gives.bind {m : Pass α} {f : α → Pass β} (h : Gives I m s Q)
    (hf : ∀ a s', I s' → Q a s' → Gives I (f a) s' P) : Gives I (m >>= f) s P := by
  rw [Gives, ExceptT.run_bind, Edit.gives_bind]
  refine Edit.Gives.mono h fun result s' hs => ?_
  cases result with
  | error fault => exact ⟨hs.1, nofun⟩
  | ok a => exact hf a s' hs.1 (hs.2 a rfl)

theorem Gives.mono {m : Pass α} (h : Gives I m s Q) (hQ : ∀ a s', Q a s' → R a s') :
    Gives I m s R :=
  Edit.Gives.mono h fun _ s' hs => ⟨hs.1, fun a ha => hQ a s' (hs.2 a ha)⟩

theorem gives_pure (h : I s) {a : α} (hQ : Q a s) : Gives I (pure a : Pass α) s Q :=
  ⟨h, by rintro _ ⟨⟩; exact hQ⟩

theorem gives_throw (h : I s) (fault : PassFault) : Gives I (throw fault : Pass α) s Q :=
  ⟨h, nofun⟩

theorem gives_refuse (h : I s) (cause : Refusal) :
    Gives I (Pass.refuse id cause : Pass α) s Q := ⟨h, nofun⟩

theorem gives_get_bind {f : Store → Pass β} : Gives I (get >>= f) s P ↔ Gives I (f s) s P := Iff.rfl

theorem gives_set_bind {f : PUnit → Pass β} :
    Gives I (set s' >>= f) s P ↔ Gives I (f ⟨⟩) s' P := Iff.rfl

theorem gives_modify_bind {f : PUnit → Pass β} {edit : Store → Store} :
    Gives I (modify edit >>= f) s P ↔ Gives I (f ⟨⟩) (edit s) P := Iff.rfl

/-- An edit is a pass that comes to its end. -/
theorem gives_lift {m : Edit α} (h : m.Gives s fun _ s' => I s') :
    Gives I (liftM m : Pass α) s fun _ _ => True := ⟨h, fun _ _ => trivial⟩

theorem gives_ite {c : Prop} [Decidable c] {m n : Pass α} (hpos : c → Gives I m s Q)
    (hneg : ¬ c → Gives I n s Q) : Gives I (if c then m else n) s Q := by
  split
  · exact hpos ‹_›
  · exact hneg ‹_›

theorem gives_sweep {edit : α → Pass Bool} {items : List α} (h : I s)
    (hedit : ∀ item s, I s → Gives I (edit item) s fun _ _ => True) :
    Gives I (sweep edit items) s fun _ _ => True := by
  induction items generalizing s with
  | nil => exact gives_pure h trivial
  | cons item rest ih =>
      refine (hedit item s h).bind fun changed s' hs _ => ?_
      exact (ih hs).bind fun more s'' hs' _ => gives_pure hs' trivial

theorem gives_foldlM {f : β → α → Pass β} {items : List α} {b : β} (h : I s)
    (hf : ∀ b item s, I s → Gives I (f b item) s fun _ _ => True) :
    Gives I (items.foldlM f b) s fun _ _ => True := by
  induction items generalizing s b with
  | nil => exact gives_pure h trivial
  | cons item rest ih =>
      rw [List.foldlM_cons]
      exact (hf b item s h).bind fun b' s' hs _ => ih hs

end Pass

/-! ### Substitution -/

namespace Substitution

open Pass

variable {write : Data.Writer} {call : NodeId} {p : Permutation} {args : List NodeId}

theorem mem_of_branch? {branches : List (String × NodeId)} {wanted : String}
    (h : branch? branches wanted = some id) : ∃ name, (name, id) ∈ branches := by
  rw [branch?] at h
  cases hlookup : branches.lookup wanted with
  | some first =>
      rw [hlookup] at h
      obtain rfl := Option.some_inj.mp h
      obtain ⟨before, behind, rfl, -⟩ := List.lookup_eq_some_iff.mp hlookup
      exact ⟨wanted, List.mem_append_right _ List.mem_cons_self⟩
  | none =>
      rw [hlookup] at h
      obtain ⟨before, behind, hsplit, -⟩ := List.lookup_eq_some_iff.mp h
      refine ⟨"default", List.mem_reverse.mp ?_⟩
      rw [hsplit]
      exact List.mem_append_right _ List.mem_cons_self

/-- What replaces a question is new, or comes from below the question. -/
theorem gives_answer (h : s.Forest) (hcall : call < s.size)
    (hargs : ∀ arg ∈ args, Movable {call} s arg) (query : Query) (value : Data) :
    Gives Forest (answer write call query args value) s fun result s' =>
      ∀ new ∈ result, Movable {call} s' new := by
  rw [answer, gives_get_bind]
  cases query with
  | value =>
      dsimp only
      split
      · exact gives_throw h _
      case h_2 tree _ =>
          rcases hgraft : s.graft tree with ⟨new, s₁⟩
          have hs := h.built_graft (singleton_lt hcall) hgraft
          rw [gives_set_bind]
          refine gives_pure hs.forest ?_
          rintro _ ⟨⟩
          exact hs.movable h.toLinked (singleton_lt hcall)
  | isSet =>
      dsimp only
      split
      · exact gives_pure h nofun
      case h_2 expected _ =>
          rcases hadd : s.add
            { kind := if agrees value expected then .trueLit else .falseLit, span := s.span call }
            with ⟨new, s₁⟩
          obtain ⟨hs, -⟩ := h.built_add (S := {call}) hadd
          rw [gives_set_bind]
          refine gives_pure hs.forest ?_
          rintro _ ⟨⟩
          exact hs.movable h.toLinked (singleton_lt hcall)
  | select =>
      dsimp only
      split
      · exact gives_pure h nofun
      case h_2 map hmap =>
          refine gives_ite (fun _ => gives_pure h nofun) fun _ => ?_
          have hmap' := hargs map (List.mem_of_getElem? hmap)
          split
          case h_1 branch hbranch =>
              obtain ⟨name, hmem⟩ := mem_of_branch? hbranch
              obtain ⟨property, hproperty, hsome⟩ := List.mem_filterMap.mp hmem
              simp only [Option.bind_eq_bind, Option.bind_eq_some_iff] at hsome
              obtain ⟨_, -, key, -, new, hnew, heq⟩ := hsome
              obtain ⟨-, rfl⟩ : keyText s key = name ∧ new = branch := by simpa [pure] using heq
              have hbranch' := (hmap'.of_child h hproperty).of_child h (mem_of_nth? hnew)
              have hs := steady_remove h hbranch'.off
              rw [gives_set_bind]
              refine gives_pure hs.forest ?_
              rw [hbranch]
              rintro _ ⟨⟩
              exact hbranch'.of_steady hs
          case h_2 hnone =>
              refine gives_pure h ?_
              rw [hnone]
              exact nofun

theorem gives_replacement? (h : s.Forest) :
    Gives Forest (replacement? write p call) s fun result s' =>
      ∀ new ∈ result, Movable {call} s' new := by
  rw [replacement?, gives_get_bind]
  split
  · exact gives_pure h nofun
  case h_2 query args value hquery =>
      simp only [query?, Option.bind_eq_bind, Option.bind_eq_some_iff] at hquery
      obtain ⟨_, -, callee, hcallee, _, -, _, -, _, -, _, -, _, -, heq⟩ := hquery
      have hargs : ((s.nth? call 1).map s.children).getD [] = args := by
        simp only [pure, Option.some_inj, Prod.mk.injEq] at heq
        exact heq.2.1
      refine gives_answer h (lt_of_mem_children (mem_of_nth? hcallee)) (fun arg harg => ?_) _ _
      rw [← hargs] at harg
      cases hnth : s.nth? call 1 with
      | none =>
          rw [hnth] at harg
          cases harg
      | some list =>
          rw [hnth] at harg
          exact (h.movable_child (mem_of_nth? hnth)).of_child h harg

/-- What holds whenever a question is replaced holds when all questions are answered. -/
theorem gives_visit {I : Store → Prop} (hreplace : ∀ id s, I s →
    Gives I (replacement? write p id) s fun result s' => ∀ new ∈ result, I (s'.replace id new)) (h : I s)
    (depth : Nat) : Gives I (visit write p depth id) s fun _ _ => True := by
  induction depth generalizing s id with
  | zero => exact gives_pure h trivial
  | succ depth ih =>
      refine (hreplace id s h).bind fun result s' hs hresult => ?_
      split
      case h_1 new =>
          rw [gives_modify_bind]
          exact gives_pure (hresult new rfl) trivial
      case h_2 =>
          rw [gives_get_bind]
          exact gives_sweep hs fun item s'' hs' => ih hs'

end Substitution

open Pass

theorem gives_substituteBy (h : s.Forest) (write : Data.Writer) (p : Permutation) :
    Gives Forest (substituteBy write p) s fun _ _ => True := by
  refine gives_ite (fun _ => gives_pure h trivial) fun _ => ?_
  rw [gives_get_bind]
  refine Substitution.gives_visit (fun id s hs => ?_) h _
  refine Edit.Gives.mono (Substitution.gives_replacement? hs) fun result s' hs' => ?_
  refine ⟨hs'.1, fun a ha new hnew => ?_⟩
  have hmovable := hs'.2 a ha new hnew
  exact hs'.1.replace hmovable.lt hmovable.ne_root (hmovable.off id rfl)

/-! ### Removal of declarations -/

/-- What every round keeps holds when declarations are removed. -/
theorem Unused.gives_settle {I : Store → Prop}
    (hround : ∀ s, I s → Edit.Gives round s fun _ s' => I s') (h : I s) (changed : Bool)
    (rounds : Nat) : Gives I (settle changed rounds) s fun _ _ => True := by
  induction rounds generalizing s changed with
  | zero =>
      rw [settle, gives_get_bind]
      exact gives_refuse h _
  | succ rounds ih =>
      rw [settle]
      refine Gives.bind (gives_lift (hround s h)) fun more s' hs _ => ?_
      exact gives_ite (fun _ => ih hs true) fun _ => gives_pure hs trivial

/-! ### Replacement of names -/

theorem Store.Forest.setText (h : s.Forest) (text : String) : (s.setText id text).Forest := by
  rw [Store.setText, setPayload]
  exact h.modifyHead _

theorem gives_renameLocals (h : s.Forest) : Gives Forest renameLocals s fun _ _ => True := by
  rw [renameLocals, gives_modify_bind, gives_get_bind]
  split
  · exact gives_refuse h.scan _
  · dsimp only
    rw [gives_set_bind]
    refine gives_pure ?_ trivial
    exact List.foldlRecOn _ _ h.scan fun _ hs (_, text) _ => hs.setText text

theorem Privates.gives_addReplacement {I : Store → Prop} {digest : Digest.Method}
    {context : String} (h : I s) (found : Replacements) (member : NodeId × String) :
    Gives I (addReplacement digest context found member) s fun _ _ => True := by
  refine gives_ite (fun _ => gives_pure h trivial) fun _ => ?_
  dsimp only
  split
  · exact gives_refuse h _
  · exact gives_pure h trivial

theorem gives_replacePrivates (h : s.Forest) (context : String) :
    Gives Forest (replacePrivates context) s fun _ _ => True := by
  rw [replacePrivates, replacePrivatesBy, gives_get_bind]
  dsimp only
  split
  · exact gives_refuse h _
  · refine (gives_foldlM h fun found member s' hs => ?_).bind fun replacements s' _ _ => ?_
    · exact Privates.gives_addReplacement hs found member
    · rw [gives_set_bind]
      refine gives_pure ?_ trivial
      exact List.foldlRecOn _ _ h fun _ hs _ _ => hs.setText _

/-! ### Sequences of passes -/

/-- A pass with its settings. -/
inductive Transform where
  | substitution (p : Permutation)
  | branches
  | unused
  | declarations
  | blocks
  | locals
  | privates (context : String)

namespace Transform

/-- The pass of a transformation; blocks are reduced in one round. -/
def pass : Transform → Pass Bool
  | .substitution p => substitute p
  | .branches => liftM removeDeadBranches
  | .unused => removeUnused
  | .declarations => liftM combineDeclarations
  | .blocks => liftM reduceBlocks
  | .locals => renameLocals
  | .privates context => replacePrivates context

/-- The store that the pass of a transformation leaves, also if it ends early. -/
def run (s : Store) (transform : Transform) : Store := (transform.pass.run.run s).2

theorem forest_run (h : s.Forest) (transform : Transform) : (transform.run s).Forest := by
  have hgives : Gives Forest transform.pass s fun _ _ => True := by
    cases transform with
    | substitution p => exact gives_substituteBy h _ p
    | branches => exact gives_lift (keepsForest_removeDeadBranches h)
    | unused => exact Unused.gives_settle (fun _ hs => Unused.keepsForest_round hs) h false _
    | declarations => exact gives_lift (keepsForest_combineDeclarations h)
    | blocks => exact gives_lift (keepsForest_reduceBlocks h)
    | locals => exact gives_renameLocals h
    | privates context => exact gives_replacePrivates h context
  exact hgives.1

/-- Whatever passes run one after the other, they leave a forest. -/
theorem forest_foldl_run (h : s.Forest) (transforms : List Transform) :
    (transforms.foldl run s).Forest :=
  List.foldlRecOn _ _ h fun _ hs transform _ => forest_run hs transform

end Transform

/-- The nodes of a store are linked as a tree: children are in the store and know their parents,
which know them once each, no node is above itself, and the root is on top. -/
structure Store.IsTree (s : Store) : Prop where
  child_lt : ∀ p c, c ∈ s.children p → c < s.size
  mem_iff : ∀ p c, c ∈ s.children p ↔ s.parent? c = some p
  nodup : ∀ p, (s.children p).Nodup
  acyclic : ∀ x, ¬ Relation.TransGen (fun c p => s.parent? c = some p) x x
  root_parent : s.parent? s.root = none

theorem Store.Forest.isTree (h : s.Forest) : s.IsTree where
  child_lt _ _ hc := h.child_lt hc
  mem_iff := h.linked
  nodup := h.nodup
  acyclic x hx := by
    obtain ⟨p, hp, hpx⟩ := Relation.TransGen.head'_iff.mp hx
    exact h.acyclic x p hp hpx
  root_parent := h.root_parent

/-- The store of a tree stays a tree through any sequence of passes, those included that stop with
an error on the way. -/
theorem isTree_foldl_run (t : Tree) (transforms : List Transform) :
    (transforms.foldl Transform.run (.ofTree t)).IsTree :=
  (Transform.forest_foldl_run (forest_ofTree t) transforms).isTree

end ScriptMin
