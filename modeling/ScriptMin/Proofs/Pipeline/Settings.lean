import ScriptMin.Pipeline.Compile
import ScriptMin.Proofs.Pass.Answering

/-!
What a compilation reads of the settings. Only the first pass looks at them, and it looks up no
name but those that the source asks about. Main statement: the result of a compilation is the same
for settings that agree on these names, so that all other settings can be left out.
-/

namespace ScriptMin

open Pipeline Substitution

variable {p q : Permutation} {names : List String} {source : String}

/-- The names of the settings that a source asks about: the strings that are the first arguments
of its calls of `core.Env.getValue`, `core.Env.isSet` and `core.Env.select`. -/
def askedSettings (source : String) : List String :=
  match parseScript source 1 with
  | .ok t => asked t
  | .error _ => []

theorem askedSettings_of_parse {t : Tree} (h : parseScript source 1 = .ok t) :
    askedSettings source = asked t := by
  unfold askedSettings
  rw [h]

/-- Two permutations have the same values for some settings. -/
def Permutation.AgreeOn (names : List String) (p q : Permutation) : Prop :=
  ∀ name ∈ names, q.get? name = p.get? name

theorem lookup_filter_contains {α : Type} {name : String} (hname : name ∈ names)
    (settings : List (String × α)) :
    (settings.filter fun (other, _) => names.contains other).lookup name = settings.lookup name := by
  induction settings with
  | nil => rfl
  | cons setting rest ih =>
      obtain ⟨other, value⟩ := setting
      by_cases heq : name = other
      · subst heq
        rw [List.filter_cons_of_pos (by simpa using hname), List.lookup_cons_self,
          List.lookup_cons_self]
      · have hne : (name == other) = false := beq_false_of_ne heq
        rw [List.lookup_cons, hne, ← ih]
        by_cases hother : other ∈ names
        · rw [List.filter_cons_of_pos (by simpa using hother), List.lookup_cons, hne]
        · rw [List.filter_cons_of_neg (by simpa using hother)]

/-- A permutation agrees with its restriction on the names it is restricted to. -/
theorem Permutation.agreeOn_filter (p : Permutation) (names : List String) :
    p.AgreeOn names (p.filter names) :=
  fun _ hname => lookup_filter_contains hname p.settings

theorem compile_congr (h : p.AgreeOn (askedSettings source) q) (o : PipelineOptions)
    (file : String) : compile o q file source = compile o p file source := by
  rw [compile_eq, compile_eq]
  cases hparse : parseScript source 1 with
  | error fault => rfl
  | ok t =>
      rw [askedSettings_of_parse hparse] at h
      -- The passes behind the first one are the same, and the first one does the same.
      have hfirst : step { store := .ofTree t } (substitute q) =
          step { store := .ofTree t } (substitute p) := by
        rw [step, step, run_substitute_congr h]
      have hrun : (Except.ok t >>= run (passes o q)) = (Except.ok t >>= run (passes o p)) := by
        change step { store := .ofTree t } (substitute q) >>= _ =
          step { store := .ofTree t } (substitute p) >>= _
        rw [hfirst]
      rw [hrun]

/-- A compilation reads no settings but those that the source asks about. -/
theorem compile_reads_askedSettings (o : PipelineOptions) (p : Permutation) (file source : String) :
    compile o (p.filter (askedSettings source)) file source = compile o p file source ∧
    ∀ q : Permutation, p.AgreeOn (askedSettings source) q →
      compile o q file source = compile o p file source :=
  ⟨compile_congr (p.agreeOn_filter _) o file, fun _ hq => compile_congr hq o file⟩

/-- A source that asks about `a` and `b`: it makes no difference whether `c` has a value. -/
theorem compile_reads_askedSettings_pair :
    let source := "f(core.Env.getValue(\"a\"),core.Env.isSet(\"b\"))"
    let p : Permutation := ⟨[("a", .int 1), ("b", .bool true), ("c", .int 2)]⟩
    let q : Permutation := ⟨[("a", .int 1), ("b", .bool true)]⟩
    askedSettings source = ["a", "b"] ∧ compile {} q "f.js" source = compile {} p "f.js" source ∧
      (compile {} q "f.js" source).map Compiled.code = .ok "f(1,true);" := by
  intro source p q
  have hasked : askedSettings source = ["a", "b"] := by decide +kernel
  have hagree : p.AgreeOn (askedSettings source) q := by
    rw [hasked]
    rintro name (_ | ⟨_, _ | ⟨_, ⟨⟩⟩⟩)
    · rfl
    · rfl
  refine ⟨hasked, (compile_reads_askedSettings {} p "f.js" source).2 q hagree, ?_⟩
  decide +kernel

end ScriptMin
