import Mathlib.Control.Basic
import ScriptMin.Proofs.Tree.Parts

/-!
What trees mean. A meaning is given in a monad whose effects are all that is observed of a
program: calls, reads and writes, in the order in which they happen. It evaluates from left to
right the forms that are described here, and may do anything with the others.
-/

namespace ScriptMin

variable {m : Type → Type} [Monad m]

/-- Goes on with a second computation if the first one ends normally. -/
def andThen {Exit : Type} (first second : m (Option Exit)) : m (Option Exit) := do
  match ← first with
  | none => second
  | some exit => return some exit

/-- Runs statements one after the other until one of them does not end normally. -/
def runAll {Exit : Type} (run : Tree → m (Option Exit)) : List Tree → m (Option Exit)
  | [] => return none
  | t :: rest => andThen (run t) (runAll run rest)

/-- What expressions, targets of assignments and statements mean, evaluated from left to right. -/
structure Meaning (m : Type → Type) [Monad m] where
  Value : Type
  /-- What a target stands for once the expressions in it are evaluated. -/
  Place : Type
  /-- How a statement ends that does not end normally. -/
  Exit : Type
  isTrue : Value → Bool
  negated : Value → Value
  returned : Value → Exit
  /-- The place that a name stands for. -/
  named : String → Place
  value : Tree → m Value
  /-- Evaluates the expressions in a target. -/
  place : Tree → m Place
  read : Place → m Value
  write : Place → Value → m Unit
  /-- Applies the operator of a compound assignment to the old and the new value. -/
  operate : Kind → Value → Value → m Value
  /-- Runs a statement. The result is `none` if it ends normally. -/
  run : Tree → m (Option Exit)
  /-- Runs a computation where the names are visible that statements declare for their block. -/
  enclosed : List Tree → ∀ {α : Type}, m α → m α
  isTrue_negated : ∀ v, isTrue (negated v) = !isTrue v
  value_inRole : ∀ role t, value (t.inRole role) = value t
  place_inRole : ∀ role t, place (t.inRole role) = place t
  run_inRole : ∀ role t, run (t.inRole role) = run t
  place_identifier : ∀ {t}, t.kind = .identifier → place t = pure (named t.head.text)
  value_conditional : ∀ {t c a b}, t.kind = .conditional → t.nth? 0 = some c →
    t.nth? 1 = some a → t.nth? 2 = some b →
    value t = do if isTrue (← value c) then value a else value b
  value_and : ∀ {t a b}, t.kind = .and → t.nth? 0 = some a → t.nth? 1 = some b →
    value t = do
      let v ← value a
      if isTrue v then value b else pure v
  value_or : ∀ {t a b}, t.kind = .or → t.nth? 0 = some a → t.nth? 1 = some b →
    value t = do
      let v ← value a
      if isTrue v then pure v else value b
  value_not : ∀ {t a}, t.kind = .not → t.nth? 0 = some a →
    value t = do return negated (← value a)
  value_assign : ∀ {t x e}, t.kind = .assign → t.nth? 0 = some x → t.nth? 1 = some e →
    value t = do
      let p ← place x
      match t.head.assignOp with
      | none =>
        let v ← value e
        write p v
        return v
      | some op =>
        let old ← read p
        let v ← operate op old (← value e)
        write p v
        return v
  run_expression : ∀ {t e}, t.kind = .semicolon → t.child? .expression = some e →
    run t = do
      let _ ← value e
      return none
  run_return : ∀ {t e}, t.kind = .returnStmt → t.child? .value = some e →
    run t = do return some (returned (← value e))
  run_if : ∀ {t c a}, t.kind = .ifElse → t.child? .condition = some c →
    t.child? .thenPart = some a →
    run t = do
      if isTrue (← value c) then run a
      else match t.child? .elsePart with
        | some b => run b
        | none => return none
  run_block : ∀ {t}, t.kind = .block → run t = enclosed t.children (runAll run t.children)
  /-- Statements that leave the function never end normally. -/
  run_leaving : ∀ {t}, t.kind = .returnStmt ∨ t.kind = .throwStmt → ∃ exit, run t = some <$> exit
  enclosed_map : ∀ {α β : Type} (ts : List Tree) (f : α → β) (x : m α),
    enclosed ts (f <$> x) = f <$> enclosed ts x
  enclosed_of_not_declared : ∀ {α : Type} (ts : List Tree) (x : m α),
    (∀ t ∈ ts, t.kind ≠ .letList ∧ t.kind ≠ .constList) → enclosed ts x = x

namespace Meaning

variable (M : Meaning m)

/-- Evaluates the expressions in a target and, for a compound assignment, reads the old value.
What is left to do is a function of the new value. -/
def prepare (op : Option Kind) (target : Tree) : m (M.Value → m M.Value) := do
  let p ← M.place target
  match op with
  | none => return fun v => do
    M.write p v
    return v
  | some op =>
    let old ← M.read p
    return fun v => do
      let v ← M.operate op old v
      M.write p v
      return v

def runList (ts : List Tree) : m (Option M.Exit) := runAll M.run ts

theorem runList_cons (t : Tree) (ts : List Tree) :
    M.runList (t :: ts) = andThen (M.run t) (M.runList ts) := rfl

variable [LawfulMonad m] {M}

/-- An assignment prepares its target before its right side is evaluated. -/
theorem value_assign_eq {t x e : Tree} (hkind : t.kind = .assign) (hx : t.nth? 0 = some x)
    (he : t.nth? 1 = some e) :
    M.value t = M.prepare t.head.assignOp x >>= fun store => M.value e >>= store := by
  rw [M.value_assign hkind hx he, prepare, bind_assoc]
  refine bind_congr fun p => ?_
  cases t.head.assignOp with
  | none => simp
  | some op => simp

/-- To prepare a name for a plain assignment is not observed. -/
theorem prepare_identifier {x : Tree} (hkind : x.kind = .identifier) :
    M.prepare none x =
      pure fun v => M.write (M.named x.head.text) v >>= fun _ => pure v := by
  rw [prepare, M.place_identifier hkind, pure_bind]

theorem andThen_pure_none (x : m (Option M.Exit)) : andThen x (pure none) = x := by
  refine (bind_congr fun exit => ?_).trans (bind_pure x)
  cases exit <;> rfl

theorem runList_singleton (t : Tree) : M.runList [t] = M.run t := andThen_pure_none _

/-- Nothing runs behind what does not end normally. -/
theorem andThen_leaving (exit : m M.Exit) (x : m (Option M.Exit)) :
    andThen (some <$> exit) x = some <$> exit := by
  rw [andThen, bind_map_left, map_eq_pure_bind]

/-- Statements never end normally if the last one leaves the function. -/
theorem runList_leaving {ts : List Tree} {last : Tree} (hlast : ts.getLast? = some last)
    (hkind : last.kind = .returnStmt ∨ last.kind = .throwStmt) :
    ∃ exit, M.runList ts = some <$> exit := by
  induction ts with
  | nil => cases hlast
  | cons t ts ih =>
      cases ts with
      | nil =>
          obtain rfl : t = last := by simpa using hlast
          rw [runList_singleton]
          exact M.run_leaving hkind
      | cons next rest =>
          obtain ⟨exit, hexit⟩ := ih (by simpa using hlast)
          refine ⟨M.run t >>= fun first => first.elim exit pure, ?_⟩
          rw [runList_cons, hexit, andThen, map_bind]
          refine bind_congr fun first => ?_
          cases first with
          | none => rfl
          | some e => exact (map_pure some e).symm

end Meaning

end ScriptMin
