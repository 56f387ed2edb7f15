import Mathlib.Data.List.Induction
import ScriptMin.Pipeline.Compile
import ScriptMin.Proofs.Pass.Answering

/-!
Steps that are skipped. A compilation runs its steps one after the other, and each of them may
refuse the tree that the steps before it have left. Main statement: a compilation fails exactly if
the source is rejected or a value that is put into it, and a step that is skipped is reported but
makes otherwise no difference to a compilation without it.
-/

namespace ScriptMin

open Substitution

variable {α β : Type} {s : Store}

/-! ### Passes that only refuse -/

namespace Pass

/-- A pass ends early only by refusing the tree. -/
def OnlyRefuses (m : Pass α) : Prop := ∀ s fault, m.fault? s ≠ some (.text fault)

theorem OnlyRefuses.bind {m : Pass α} {f : α → Pass β} (h : OnlyRefuses m)
    (hf : ∀ a, OnlyRefuses (f a)) : OnlyRefuses (m >>= f) := by
  intro s fault
  have hfirst := h s fault
  rw [fault?] at hfirst ⊢
  rw [run_bind]
  rcases hrun : m.run.run s with ⟨cause | a, s'⟩
  · rwa [hrun] at hfirst
  · exact hf a s' fault

theorem onlyRefuses_pure (a : α) : OnlyRefuses (pure a : Pass α) := fun _ _ => nofun

theorem onlyRefuses_get : OnlyRefuses (get : Pass Store) := fun _ _ => nofun

theorem onlyRefuses_set (s : Store) : OnlyRefuses (set s : Pass PUnit) := fun _ _ => nofun

theorem onlyRefuses_modify (f : Store → Store) : OnlyRefuses (modify f : Pass PUnit) :=
  fun _ _ => nofun

theorem onlyRefuses_refuse (id : NodeId) (cause : Refusal) :
    OnlyRefuses (refuse id cause : Pass α) := fun _ _ => nofun

/-- An edit never ends early. -/
theorem fault?_lift (m : Edit α) (s : Store) : (liftM m : Pass α).fault? s = none := rfl

theorem onlyRefuses_lift (m : Edit α) : OnlyRefuses (liftM m : Pass α) := by
  intro s fault
  rw [fault?_lift]
  exact nofun

theorem onlyRefuses_ite {c : Prop} [Decidable c] {m n : Pass α} (hm : OnlyRefuses m)
    (hn : OnlyRefuses n) : OnlyRefuses (if c then m else n) := by
  split
  · exact hm
  · exact hn

theorem onlyRefuses_foldlM {f : β → α → Pass β} (hf : ∀ b a, OnlyRefuses (f b a)) (items : List α)
    (b : β) : OnlyRefuses (items.foldlM f b) := by
  induction items generalizing b with
  | nil => exact onlyRefuses_pure b
  | cons item rest ih =>
      rw [List.foldlM_cons]
      exact (hf b item).bind ih

end Pass

open Pass

theorem Unused.onlyRefuses_settle (changed : Bool) (rounds : Nat) :
    OnlyRefuses (settle changed rounds) := by
  induction rounds generalizing changed with
  | zero => exact onlyRefuses_get.bind fun s => onlyRefuses_refuse _ _
  | succ rounds ih =>
      refine (onlyRefuses_lift round).bind fun more => ?_
      exact onlyRefuses_ite (ih true) (onlyRefuses_pure changed)

theorem onlyRefuses_renameLocals : OnlyRefuses renameLocals := by
  refine (onlyRefuses_modify _).bind fun _ => onlyRefuses_get.bind fun s => ?_
  split
  · exact onlyRefuses_refuse _ _
  · exact (onlyRefuses_set _).bind fun _ => onlyRefuses_pure _

theorem Privates.onlyRefuses_addReplacement (digest : Digest.Method) (context : String)
    (found : Replacements) (member : NodeId × String) :
    OnlyRefuses (addReplacement digest context found member) := by
  refine onlyRefuses_ite (onlyRefuses_pure found) ?_
  dsimp only
  split
  · exact onlyRefuses_refuse _ _
  · exact onlyRefuses_pure _

theorem onlyRefuses_replacePrivates (context : String) :
    OnlyRefuses (replacePrivates context) := by
  refine onlyRefuses_get.bind fun s => ?_
  dsimp only
  split
  · exact onlyRefuses_refuse _ _
  · refine (onlyRefuses_foldlM (Privates.onlyRefuses_addReplacement _ context) _ _).bind
      fun _ => ?_
    exact (onlyRefuses_set _).bind fun _ => onlyRefuses_pure _

/-! ### Steps -/

namespace Pipeline

inductive Step where
  | substitution
  | branches
  | unused
  | declarations
  | blocks
  | locals
  | privates
  deriving DecidableEq, Repr

def Step.pass (o : PipelineOptions) (p : Permutation) : Step → Pass Bool
  | .substitution => substitute p
  | .branches => removeBranches
  | .unused => removeUnused
  | .declarations => liftM combineDeclarations
  | .blocks => liftM (repeatEdit reduceBlocks maxBlockRounds)
  | .locals => renameLocals
  | .privates => replacePrivates o.contextId

def steps (o : PipelineOptions) : List Step :=
  [.substitution, .branches, .unused] ++
  (if o.optimization.declarations then [.declarations] else []) ++
  (if o.optimization.blocks then [.blocks] else []) ++
  (if o.optimization.locals then [.locals] else []) ++
  (if o.optimization.privates then [.privates] else [])

theorem passes_eq (o : PipelineOptions) (p : Permutation) :
    passes o p = (steps o).map (Step.pass o p) := by
  rw [passes, steps]
  simp only [List.map_append, apply_ite (List.map _), List.map_cons, List.map_nil, Step.pass]

theorem onlyRefuses_pass (o : PipelineOptions) (p : Permutation) {step : Step}
    (h : step ≠ .substitution) : OnlyRefuses (step.pass o p) := by
  cases step with
  | substitution => exact absurd rfl h
  | branches =>
      refine (onlyRefuses_lift removeDeadBranches).bind fun _ => ?_
      exact (onlyRefuses_modify _).bind fun _ => onlyRefuses_pure _
  | unused => exact Unused.onlyRefuses_settle _ _
  | declarations => exact onlyRefuses_lift _
  | blocks => exact onlyRefuses_lift _
  | locals => exact onlyRefuses_renameLocals
  | privates => exact onlyRefuses_replacePrivates _

theorem nodup_steps (o : PipelineOptions) : (steps o).Nodup := by
  rw [steps]
  cases o.optimization.declarations <;> cases o.optimization.blocks <;>
    cases o.optimization.locals <;> cases o.optimization.privates <;> decide

theorem steps_eq_cons (o : PipelineOptions) :
    ∃ later, steps o = .substitution :: later ∧ .substitution ∉ later := by
  refine ⟨_, rfl, ?_⟩
  exact (List.nodup_cons.mp (nodup_steps o)).1

/-! ### Runs -/

variable {o : PipelineOptions} {p : Permutation} {t : Tree} {progress progress' : Progress}
  {all before behind : List Step} {x : Step}

def runSteps (o : PipelineOptions) (p : Permutation) (all : List Step) (t : Tree) :
    Except Fault Progress :=
  run (all.map (Step.pass o p)) t

theorem step_eq (progress : Progress) (pass : Pass Bool) :
    step progress pass =
      match pass.fault? progress.store with
      | none => .ok { progress with store := (pass.run.run progress.store).2 }
      | some (.refused cause line) =>
        .ok { progress with skipped := progress.skipped ++ [(cause, line)] }
      | some (.text fault) => .error fault := by
  rw [step, Pass.fault?]
  rcases pass.run.run progress.store with ⟨(fault | ⟨cause, line⟩) | changed, s'⟩
  · rfl
  · rfl
  · rfl

theorem runSteps_append (before behind : List Step) (t : Tree) :
    runSteps o p (before ++ behind) t =
      runSteps o p before t >>= (behind.map (Step.pass o p)).foldlM step := by
  rw [runSteps, run, List.map_append, List.foldlM_append]
  rfl

/-- What passes make of a tree does not depend on what has been reported before. -/
theorem map_store_foldlM (passes : List (Pass Bool)) (h : progress'.store = progress.store) :
    (passes.foldlM step progress').map Progress.store =
      (passes.foldlM step progress).map Progress.store := by
  induction passes generalizing progress progress' with
  | nil => exact congrArg Except.ok h
  | cons pass rest ih =>
      rw [List.foldlM_cons, List.foldlM_cons, step_eq, step_eq, h]
      rcases pass.fault? progress.store with _ | (fault | ⟨cause, line⟩)
      · exact ih rfl
      · rfl
      · exact ih rfl

/-- Passes that only refuse come to an end. -/
theorem exists_progress (passes : List (Pass Bool)) (h : ∀ pass ∈ passes, pass.OnlyRefuses)
    (progress : Progress) : ∃ progress', passes.foldlM step progress = .ok progress' := by
  induction passes generalizing progress with
  | nil => exact ⟨progress, rfl⟩
  | cons pass rest ih =>
      rw [List.forall_mem_cons] at h
      rw [List.foldlM_cons, step_eq]
      have hfirst := h.1 progress.store
      rcases hfault : pass.fault? progress.store with _ | (fault | ⟨cause, line⟩)
      · exact ih h.2 _
      · exact absurd hfault (hfirst fault)
      · exact ih h.2 _

/-! ### Refusals -/

/-- The refusal that a step ends with, on the tree that the steps before it have left. -/
def refusal? (o : PipelineOptions) (p : Permutation) (t : Tree) (all : List Step) (x : Step) :
    Option (Refusal × Nat) :=
  match runSteps o p (all.takeWhile (· ≠ x)) t with
  | .ok progress =>
    match (x.pass o p).fault? progress.store with
    | some (.refused cause line) => some (cause, line)
    | _ => none
  | .error _ => none

/-- The steps that refuse the tree they get, with the refusals, in order. -/
def refusing (o : PipelineOptions) (p : Permutation) (t : Tree) (all : List Step) :
    List (Step × Refusal × Nat) :=
  all.filterMap fun x => (refusal? o p t all x).map (x, ·)

theorem takeWhile_ne (h : x ∉ before) : (before ++ x :: behind).takeWhile (· ≠ x) = before := by
  rw [List.takeWhile_append_of_pos]
  · simp
  · intro y hy
    simp only [ne_eq, decide_not, Bool.not_eq_eq_eq_not, Bool.not_true, decide_eq_false_iff_not]
    rintro rfl
    exact h hy

/-- Only the steps before a step matter for its refusal. -/
theorem refusal?_append (h : x ∈ before) :
    refusal? o p t (before ++ behind) x = refusal? o p t before x := by
  obtain ⟨first, last, rfl, hx⟩ := List.eq_append_cons_of_mem h
  rw [refusal?, refusal?, List.append_assoc, List.cons_append, takeWhile_ne hx, takeWhile_ne hx]

theorem refusal?_of_run (hx : x ∉ before) (h : runSteps o p before t = .ok progress) :
    refusal? o p t (before ++ x :: behind) x =
      match (x.pass o p).fault? progress.store with
      | some (.refused cause line) => some (cause, line)
      | _ => none := by
  rw [refusal?, takeWhile_ne hx, h]

/-- A run reports the refusals of its steps. -/
theorem skipped_eq_refusing (hall : all.Nodup) (h : runSteps o p all t = .ok progress) :
    progress.skipped = (refusing o p t all).map (·.2) := by
  induction all using List.reverseRecOn generalizing progress with
  | nil =>
      cases h
      rfl
  | append_singleton before x ih =>
      have hnodup := List.nodup_append.mp hall
      have hx : x ∉ before := fun hmem => hnodup.2.2 x hmem x List.mem_cons_self rfl
      rw [runSteps_append] at h
      have hbefore : refusing o p t (before ++ [x]) =
          refusing o p t before ++ ((refusal? o p t (before ++ [x]) x).map (x, ·)).toList := by
        rw [refusing, List.filterMap_append, refusing]
        congr 1
        exact List.filterMap_congr fun y hy => by rw [refusal?_append hy]
      cases hrun : runSteps o p before t with
      | error fault =>
          rw [hrun] at h
          cases h
      | ok progress' =>
          rw [hrun] at h
          change (step progress' (x.pass o p) >>= pure) = _ at h
          rw [bind_pure, step_eq] at h
          rw [hbefore, List.map_append, ← ih hnodup.1 hrun, refusal?_of_run hx hrun]
          rcases hfault : (x.pass o p).fault? progress'.store with _ | (fault | ⟨cause, line⟩)
          all_goals
            rw [hfault] at h
            cases h
          · simp
          · rfl

/-- What a run makes of a tree is the same without a step that refuses it. -/
theorem map_store_erase (hx : x ∈ all) (h : (refusal? o p t all x).isSome) :
    (runSteps o p (all.erase x) t).map Progress.store =
      (runSteps o p all t).map Progress.store := by
  obtain ⟨before, behind, rfl, hbefore⟩ := List.eq_append_cons_of_mem hx
  rw [List.erase_append_right _ hbefore, List.erase_cons_head, runSteps_append, runSteps_append]
  cases hrun : runSteps o p before t with
  | error fault => rfl
  | ok progress =>
      rw [refusal?_of_run hbefore hrun] at h
      change ((behind.map (Step.pass o p)).foldlM step progress).map _ =
        (((x :: behind).map (Step.pass o p)).foldlM step progress).map _
      rw [List.map_cons, List.foldlM_cons, step_eq]
      rcases hfault : (x.pass o p).fault? progress.store with _ | (fault | ⟨cause, line⟩)
      all_goals rw [hfault] at h
      · cases h
      · cases h
      · exact map_store_foldlM _ rfl

theorem exists_progress_of_refusal? {cause : Refusal} {line : Nat}
    (h : refusal? o p t all x = some (cause, line)) :
    ∃ progress, runSteps o p (all.takeWhile (· ≠ x)) t = .ok progress ∧
      (x.pass o p).fault? progress.store = some (.refused cause line) := by
  rw [refusal?] at h
  split at h
  case h_1 progress hrun =>
      refine ⟨progress, hrun, ?_⟩
      split at h
      · cases h
        assumption
      · cases h
  case h_2 => cases h

/-- Only three of the steps can refuse a tree. -/
theorem mem_of_mem_refusing {refusal : Refusal × Nat}
    (h : (x, refusal) ∈ refusing o p t (steps o)) : x ∈ [.unused, .locals, .privates] := by
  obtain ⟨y, -, hy⟩ := List.mem_filterMap.mp h
  obtain ⟨⟨cause, line⟩, hrefusal, heq⟩ := Option.map_eq_some_iff.mp hy
  obtain ⟨rfl, -⟩ := Prod.mk.inj heq
  obtain ⟨progress, hrun, hfault⟩ := exists_progress_of_refusal? hrefusal
  have hedit : ∀ m : Edit Bool, y.pass o p ≠ liftM m := by
    intro m hm
    rw [hm, Pass.fault?_lift] at hfault
    cases hfault
  cases y with
  | substitution =>
      -- Nothing runs before this step, so that it gets the tree itself.
      cases hrun
      obtain ⟨fault, -, hcause⟩ := Option.map_eq_some_iff.mp ((fault?_substitute p t).symm.trans hfault)
      cases hcause
  | branches =>
      refine absurd rfl (hedit do
        let changed ← removeDeadBranches
        modify Store.scanTree
        return changed)
  | unused => exact List.mem_cons_self
  | declarations => exact absurd rfl (hedit _)
  | blocks => exact absurd rfl (hedit _)
  | locals => exact List.mem_cons_of_mem _ List.mem_cons_self
  | privates => exact List.mem_cons_of_mem _ (List.mem_cons_of_mem _ List.mem_cons_self)

/-- A run ends with a fault exactly if an answer to a question of the tree is rejected. -/
theorem runSteps_eq_error_iff {fault : Fault} :
    runSteps o p (steps o) t = .error fault ↔ rejected? Data.text p t = some fault := by
  obtain ⟨later, hsteps, hlater⟩ := steps_eq_cons o
  have hrun : runSteps o p (steps o) t =
      step { store := .ofTree t } (substitute p) >>= (later.map (Step.pass o p)).foldlM step := by
    rw [hsteps]
    rfl
  rw [hrun, step_eq, fault?_substitute]
  cases hrejected : rejected? Data.text p t with
  | none =>
      obtain ⟨progress, hprogress⟩ := exists_progress (later.map (Step.pass o p)) (by
        intro pass hpass
        obtain ⟨x, hx, rfl⟩ := List.mem_map.mp hpass
        apply onlyRefuses_pass
        rintro rfl
        exact hlater hx) { store := ((substitute p).run.run (.ofTree t)).2 }
      constructor
      · intro h
        cases hprogress.symm.trans h
      · rintro ⟨⟩
  | some cause =>
      constructor
      · rintro ⟨⟩
        rfl
      · rintro ⟨⟩
        rfl

end Pipeline

open Pipeline

/-! ### Compilations -/

def compileSteps (all : List Step) (o : PipelineOptions) (p : Permutation) (file source : String) :
    Except Diagnostic Compiled :=
  match parseScript source 1 >>= runSteps o p all with
  | .error fault => .error (fault.report file)
  | .ok progress => .ok {
      code := progress.store.render o.printing progress.store.root
      skipped := progress.skipped.map fun (cause, line) =>
        (PassFault.refused cause line).report file }

namespace PipelineOptions

def withoutLocals (o : PipelineOptions) : PipelineOptions :=
  { o with optimization := { o.optimization with locals := false } }

def withoutPrivates (o : PipelineOptions) : PipelineOptions :=
  { o with optimization := { o.optimization with privates := false } }

theorem steps_withoutLocals (o : PipelineOptions) :
    steps o.withoutLocals = (steps o).erase .locals := by
  rw [steps, steps, withoutLocals]
  cases o.optimization.declarations <;> cases o.optimization.blocks <;>
    cases o.optimization.locals <;> cases o.optimization.privates <;> rfl

theorem steps_withoutPrivates (o : PipelineOptions) :
    steps o.withoutPrivates = (steps o).erase .privates := by
  rw [steps, steps, withoutPrivates]
  cases o.optimization.declarations <;> cases o.optimization.blocks <;>
    cases o.optimization.locals <;> cases o.optimization.privates <;> rfl

end PipelineOptions

variable {o : PipelineOptions} {p : Permutation} {file source : String} {t : Tree}
  {all : List Step} {x : Step} {compiled : Compiled}

theorem compile_eq_compileSteps (o : PipelineOptions) (p : Permutation) (file source : String) :
    compile o p file source = compileSteps (steps o) o p file source := by
  rw [compile_eq, passes_eq]
  rfl

/-- Steps read nothing of the options but the context of private names. -/
theorem compileSteps_congr {o' : PipelineOptions} (hcontext : o'.contextId = o.contextId)
    (hprinting : o'.printing = o.printing) :
    compileSteps all o' p file source = compileSteps all o p file source := by
  have hpass : Step.pass o' p = Step.pass o p := by
    funext x
    cases x with
    | privates => exact congrArg replacePrivates hcontext
    | substitution => rfl
    | branches => rfl
    | unused => rfl
    | declarations => rfl
    | blocks => rfl
    | locals => rfl
  have hrun : runSteps o' p all = runSteps o p all := by
    funext t
    rw [runSteps, runSteps, hpass]
  unfold compileSteps
  rw [hrun, hprinting]

theorem compile_withoutLocals :
    compile o.withoutLocals p file source =
      compileSteps ((steps o).erase .locals) o p file source := by
  calc compile o.withoutLocals p file source
      = compileSteps (steps o.withoutLocals) o.withoutLocals p file source :=
        compile_eq_compileSteps _ p file source
    _ = compileSteps (steps o.withoutLocals) o p file source := compileSteps_congr rfl rfl
    _ = compileSteps ((steps o).erase .locals) o p file source := by rw [o.steps_withoutLocals]

theorem compile_withoutPrivates :
    compile o.withoutPrivates p file source =
      compileSteps ((steps o).erase .privates) o p file source := by
  calc compile o.withoutPrivates p file source
      = compileSteps (steps o.withoutPrivates) o.withoutPrivates p file source :=
        compile_eq_compileSteps _ p file source
    _ = compileSteps (steps o.withoutPrivates) o p file source := compileSteps_congr rfl rfl
    _ = compileSteps ((steps o).erase .privates) o p file source := by rw [o.steps_withoutPrivates]

theorem compileSteps_eq_ok (hparse : parseScript source 1 = .ok t)
    (h : compileSteps all o p file source = .ok compiled) :
    ∃ progress, runSteps o p all t = .ok progress ∧
      compiled.code = progress.store.render o.printing progress.store.root ∧
      compiled.skipped = progress.skipped.map fun (cause, line) =>
        (PassFault.refused cause line).report file := by
  have hbind : (parseScript source 1 >>= runSteps o p all) = runSteps o p all t := by
    rw [hparse]
    rfl
  unfold compileSteps at h
  rw [hbind] at h
  cases hrun : runSteps o p all t with
  | error fault =>
      rw [hrun] at h
      cases h
  | ok progress =>
      rw [hrun] at h
      cases h
      exact ⟨progress, rfl, rfl, rfl⟩

/-- A step that is skipped makes no difference to the code. -/
theorem code_compileSteps_erase (hparse : parseScript source 1 = .ok t)
    (h : compileSteps all o p file source = .ok compiled)
    (hx : x ∈ (refusing o p t all).map (·.1)) :
    (compileSteps (all.erase x) o p file source).map Compiled.code = .ok compiled.code := by
  obtain ⟨progress, hrun, hcode, -⟩ := compileSteps_eq_ok hparse h
  obtain ⟨⟨y, refusal⟩, hmem, rfl⟩ := List.mem_map.mp hx
  obtain ⟨z, hz, hrefusal⟩ := List.mem_filterMap.mp hmem
  obtain ⟨_, hsome, heq⟩ := Option.map_eq_some_iff.mp hrefusal
  obtain ⟨rfl, -⟩ := Prod.mk.inj heq
  have herase := map_store_erase (x := z) hz (by rw [hsome]; rfl)
  rw [hrun] at herase
  have hbind : (parseScript source 1 >>= runSteps o p (all.erase z)) =
      runSteps o p (all.erase z) t := by
    rw [hparse]
    rfl
  unfold compileSteps
  rw [hbind]
  cases hshort : runSteps o p (all.erase z) t with
  | error fault =>
      rw [hshort] at herase
      cases herase
  | ok progress' =>
      rw [hshort] at herase
      have hstore : progress'.store = progress.store := Except.ok.inj herase
      dsimp only
      rw [hstore, hcode]
      rfl

/-- A compilation fails exactly if the source is rejected or the text of a value that is put into
the tree. -/
theorem compile_eq_error_iff :
    (∃ report, compile o p file source = .error report) ↔
      (∃ fault, parseScript source 1 = .error fault) ∨
        ∃ t value fault, parseScript source 1 = .ok t ∧ (.value, value) ∈ answered p t ∧
          parseExpression value.text 1 = .error fault := by
  rw [compile_eq_compileSteps]
  unfold compileSteps
  cases hparse : parseScript source 1 with
  | error fault => exact ⟨fun _ => .inl ⟨fault, rfl⟩, fun _ => ⟨fault.report file, rfl⟩⟩
  | ok t =>
      have hbind : (Except.ok t >>= runSteps o p (steps o)) = runSteps o p (steps o) t := rfl
      have hfault : ∀ fault, runSteps o p (steps o) t = .error fault ↔ rejected? Data.text p t = some fault :=
        fun _ => runSteps_eq_error_iff
      rw [hbind]
      constructor
      · rintro ⟨report, hreport⟩
        cases hrun : runSteps o p (steps o) t with
        | ok progress =>
            rw [hrun] at hreport
            cases hreport
        | error fault =>
            obtain ⟨value, hmem, hvalue⟩ := rejected?_eq_some ((hfault fault).mp hrun)
            exact .inr ⟨t, value, fault, rfl, hmem, hvalue⟩
      · rintro (⟨fault, ⟨⟩⟩ | ⟨t', value, fault, ht, hmem, hvalue⟩)
        obtain rfl := Except.ok.inj ht
        obtain ⟨first, hfirst⟩ := exists_rejected? hmem hvalue
        rw [(hfault first).mpr hfirst]
        exact ⟨first.report file, rfl⟩

/-- A step that is skipped is as if it had not been asked for, except that it is reported. Only the
text of the source and of values that are put into it can make a compilation fail. -/
theorem compile_skips (o : PipelineOptions) (p : Permutation) (file source : String) :
    ((∃ report, compile o p file source = .error report) ↔
      (∃ fault, parseScript source 1 = .error fault) ∨
        ∃ t value fault, parseScript source 1 = .ok t ∧ (.value, value) ∈ answered p t ∧
          parseExpression value.text 1 = .error fault) ∧
    ∀ t compiled, parseScript source 1 = .ok t → compile o p file source = .ok compiled →
      let skipped := (refusing o p t (steps o)).map (·.1)
      compiled.skipped = (refusing o p t (steps o)).map (fun (_, cause, line) =>
        (PassFault.refused cause line).report file) ∧
      (∀ x ∈ skipped, x ∈ [.unused, .locals, .privates]) ∧
      (.locals ∈ skipped →
        (compile o.withoutLocals p file source).map Compiled.code = .ok compiled.code) ∧
      (.privates ∈ skipped →
        (compile o.withoutPrivates p file source).map Compiled.code = .ok compiled.code) ∧
      (.unused ∈ skipped →
        (compileSteps ((steps o).erase .unused) o p file source).map Compiled.code =
          .ok compiled.code) := by
  refine ⟨compile_eq_error_iff, fun t compiled hparse hcompile => ?_⟩
  rw [compile_eq_compileSteps] at hcompile
  obtain ⟨progress, hrun, -, hskipped⟩ := compileSteps_eq_ok hparse hcompile
  have herase : ∀ x ∈ (refusing o p t (steps o)).map (·.1),
      (compileSteps ((steps o).erase x) o p file source).map Compiled.code = .ok compiled.code :=
    fun x hx => code_compileSteps_erase hparse hcompile hx
  refine ⟨?_, ?_, ?_, ?_, herase .unused⟩
  · rw [hskipped, skipped_eq_refusing (nodup_steps o) hrun, List.map_map]
    rfl
  · intro x hx
    obtain ⟨⟨y, refusal⟩, hmem, rfl⟩ := List.mem_map.mp hx
    exact mem_of_mem_refusing hmem
  · rw [compile_withoutLocals]
    exact herase .locals
  · rw [compile_withoutPrivates]
    exact herase .privates

theorem eq_ok_of_toOption {ε α : Type} {e : Except ε α} {a : α} (h : e.toOption = some a) :
    e = .ok a := by
  cases e with
  | error fault => cases h
  | ok b => exact congrArg Except.ok (Option.some_inj.mp h)

/-- A function with `eval` and a private name that stands for a variable. -/
def unrenamable : String := "function f(a)\x7beval(a,__b)\x7d"

/-- Two steps are skipped; without either of them the code is the same. -/
theorem compile_skips_unrenamable :
    ∃ t compiled, parseScript unrenamable 1 = .ok t ∧
      compile {} {} "f.js" unrenamable = .ok compiled ∧
      (refusing {} {} t (steps {})).map (·.1) = [.locals, .privates] ∧
      (compile (PipelineOptions.withoutLocals {}) {} "f.js" unrenamable).map Compiled.code =
        .ok compiled.code ∧
      (compile (PipelineOptions.withoutPrivates {}) {} "f.js" unrenamable).map Compiled.code =
        .ok compiled.code := by
  have hparsed : (parseScript unrenamable 1).toOption.map
      (fun t => (refusing {} {} t (steps {})).map (·.1)) = some [.locals, .privates] := by
    decide +kernel
  have hcompiled : (compile {} {} "f.js" unrenamable).toOption.isSome := by decide +kernel
  obtain ⟨t, ht, hnames⟩ := Option.map_eq_some_iff.mp hparsed
  obtain ⟨compiled, hsome⟩ := Option.isSome_iff_exists.mp hcompiled
  have hparse := eq_ok_of_toOption ht
  have hcompile := eq_ok_of_toOption hsome
  obtain ⟨-, -, hlocals, hprivates, -⟩ :=
    (compile_skips {} {} "f.js" unrenamable).2 t compiled hparse hcompile
  have hmem : ∀ x ∈ [Step.locals, .privates],
      x ∈ (refusing {} {} t (steps {})).map (·.1) := fun x hx => hnames.symm ▸ hx
  exact ⟨t, compiled, hparse, hcompile, hnames, hlocals (hmem _ (by simp)),
    hprivates (hmem _ (by simp))⟩

end ScriptMin
