import ScriptMin.Proofs.Tree.Meaning

/-!
A meaning that leaves a trace of what happens. It knows neither values nor a memory: whatever is
read or called is true.
-/

namespace ScriptMin

namespace Tracing

/-- What is observed of a program. -/
inductive Event where
  | read (name : String)
  | fetch
  | write
  | call
  deriving DecidableEq

/-- Computations that leave a trace, the last event first. -/
abbrev Trace := StateM (List Event)

def observe (event : Event) : Trace Unit := modify (event :: ·)

def events {α : Type} (x : Trace α) : List Event := (x.run []).run.2.reverse

/-- What a tree does as an expression, as a target and as a statement. -/
structure Behaviour where
  value : Trace Bool
  place : Trace (Option String)
  run : Trace (Option Unit)

def part? (parts : List (Head × Behaviour)) (role : Role) : Option Behaviour :=
  (parts.find? fun p => p.1.role == some role).map Prod.snd

def read : Option String → Trace Bool
  | some name => do
    observe (.read name)
    return true
  | none => do
    observe .fetch
    return true

/-- Value of an expression, from those of its parts. All values are true or false. -/
def value (head : Head) (parts : List Behaviour) : Trace Bool :=
  match head.kind, parts with
  | .identifier, _ => read (some head.text)
  | .conditional, c :: a :: b :: _ => do if ← c.value then a.value else b.value
  | .and, a :: b :: _ => do if ← a.value then b.value else return false
  | .or, a :: b :: _ => do if ← a.value then return true else b.value
  | .not, a :: _ => return !(← a.value)
  | .call, callee :: _ => do
    let _ ← callee.value
    observe .call
    return true
  | .assign, x :: e :: _ => do
    let p ← x.place
    if head.assignOp.isSome then let _ ← read p
    let v ← e.value
    observe .write
    return v
  | _, _ => return true

def place (head : Head) (parts : List Behaviour) : Trace (Option String) :=
  match head.kind, parts with
  | .identifier, _ => return some head.text
  | .index, object :: index :: _ => do
    let _ ← object.value
    let _ ← index.value
    return none
  | _, _ => return none

def run (head : Head) (parts : List (Head × Behaviour)) : Trace (Option Unit) :=
  match head.kind with
  | .semicolon =>
    match part? parts .expression with
    | some e => do
      let _ ← e.value
      return none
    | none => return none
  | .returnStmt =>
    match part? parts .value with
    | some e => do
      let _ ← e.value
      return some ()
    | none => return some ()
  | .throwStmt => return some ()
  | .ifElse =>
    match part? parts .condition, part? parts .thenPart with
    | some c, some a => do
      if ← c.value then a.run
      else match part? parts .elsePart with
        | some b => b.run
        | none => return none
    | _, _ => return none
  | .block => parts.foldr (fun p rest => andThen p.2.run rest) (return none)
  | _ => return none

mutual
def behaviour : Tree → Behaviour
  | .node head children =>
    let parts := behaviours children
    ⟨value head (parts.map Prod.snd), place head (parts.map Prod.snd), run head parts⟩

def behaviours : List Tree → List (Head × Behaviour)
  | [] => []
  | t :: rest => (t.head, behaviour t) :: behaviours rest
end

theorem behaviours_eq (ts : List Tree) :
    behaviours ts = ts.map fun t => (t.head, behaviour t) := by
  induction ts with
  | nil => rw [behaviours, List.map_nil]
  | cons t rest ih => rw [behaviours, ih, List.map_cons]

variable {t a b c e x : Tree} {role : Option Role}

theorem value_eq : (behaviour t).value = value t.head (t.children.map behaviour) := by
  cases t
  simp only [behaviour, behaviours_eq, List.map_map, Tree.head, Tree.children]
  rfl

theorem place_eq : (behaviour t).place = place t.head (t.children.map behaviour) := by
  cases t
  simp only [behaviour, behaviours_eq, List.map_map, Tree.head, Tree.children]
  rfl

theorem run_eq :
    (behaviour t).run = run t.head (t.children.map fun c => (c.head, behaviour c)) := by
  cases t
  simp only [behaviour, behaviours_eq, Tree.head, Tree.children]

/-- What a tree does does not depend on its role. -/
theorem behaviour_inRole : behaviour (t.inRole role) = behaviour t := by
  cases t
  simp only [Tree.inRole, Tree.mapHead, behaviour]
  rfl

theorem part?_eq (role : Role) :
    part? (t.children.map fun c => (c.head, behaviour c)) role = (t.child? role).map behaviour := by
  rw [part?, Tree.child?, List.find?_map, Option.map_map]
  rfl

theorem children_of_nth? (ha : t.nth? 0 = some a) (hb : t.nth? 1 = some b) :
    ∃ rest, t.children = a :: b :: rest := by
  rw [Tree.nth?] at ha hb
  match h : t.children with
  | [] => rw [h] at ha; cases ha
  | [_] => rw [h] at hb; cases hb
  | first :: second :: rest =>
      rw [h] at ha hb
      obtain ⟨rfl, rfl⟩ := And.intro (Option.some_inj.mp ha) (Option.some_inj.mp hb)
      exact ⟨rest, rfl⟩

end Tracing

open Tracing in
def tracing : Meaning Trace where
  Value := Bool
  Place := Option String
  Exit := Unit
  isTrue v := v
  negated := not
  returned _ := ()
  named := some
  value t := (behaviour t).value
  place t := (behaviour t).place
  read := Tracing.read
  write _ _ := observe .write
  operate _ _ new := return new
  run t := (behaviour t).run
  enclosed _ _ x := x
  isTrue_negated _ := rfl
  value_inRole _ _ := by rw [behaviour_inRole]
  place_inRole _ _ := by rw [behaviour_inRole]
  run_inRole _ _ := by rw [behaviour_inRole]
  place_identifier := by
    intro t hkind
    rw [place_eq, Tracing.place.eq_def, show t.head.kind = _ from hkind]
  value_conditional := by
    intro t c a b hkind hc ha hb
    obtain ⟨rest, hrest⟩ := children_of_nth? hc ha
    rw [Tree.nth?, hrest] at hb
    cases rest with
    | nil => cases hb
    | cons first rest =>
        obtain rfl := Option.some_inj.mp hb
        rw [value_eq, Tracing.value.eq_def, show t.head.kind = _ from hkind, hrest]
        rfl
  value_and := by
    intro t a b hkind ha hb
    obtain ⟨rest, hrest⟩ := children_of_nth? ha hb
    rw [value_eq, Tracing.value.eq_def, show t.head.kind = _ from hkind, hrest]
    refine bind_congr fun v => ?_
    cases v <;> rfl
  value_or := by
    intro t a b hkind ha hb
    obtain ⟨rest, hrest⟩ := children_of_nth? ha hb
    rw [value_eq, Tracing.value.eq_def, show t.head.kind = _ from hkind, hrest]
    refine bind_congr fun v => ?_
    cases v <;> rfl
  value_not := by
    intro t a hkind ha
    rw [value_eq, Tracing.value.eq_def, show t.head.kind = _ from hkind]
    rw [Tree.nth?] at ha
    cases hchildren : t.children with
    | nil => rw [hchildren] at ha; cases ha
    | cons first rest =>
        rw [hchildren] at ha
        obtain rfl := Option.some_inj.mp ha
        rfl
  value_assign := by
    intro t x e hkind hx he
    obtain ⟨rest, hrest⟩ := children_of_nth? hx he
    rw [value_eq, Tracing.value.eq_def, show t.head.kind = _ from hkind, hrest]
    refine bind_congr fun p => ?_
    cases t.head.assignOp <;> rfl
  run_expression := by
    intro t e hkind he
    rw [run_eq, Tracing.run.eq_def, show t.head.kind = _ from hkind]
    dsimp only
    rw [part?_eq, he]
    rfl
  run_return := by
    intro t e hkind he
    rw [run_eq, Tracing.run.eq_def, show t.head.kind = _ from hkind]
    dsimp only
    rw [part?_eq, he]
    rfl
  run_if := by
    intro t c a hkind hc ha
    rw [run_eq, Tracing.run.eq_def, show t.head.kind = _ from hkind]
    dsimp only
    rw [part?_eq, part?_eq, part?_eq, hc, ha]
    cases t.child? .elsePart <;> rfl
  run_block := by
    intro t hkind
    rw [run_eq, Tracing.run.eq_def, show t.head.kind = _ from hkind]
    dsimp only
    induction t.children with
    | nil => rfl
    | cons first rest ih => rw [List.map_cons, List.foldr_cons, ih, runAll]
  run_leaving := by
    rintro t (hkind | hkind)
    · rw [run_eq, Tracing.run.eq_def, show t.head.kind = _ from hkind]
      dsimp only
      cases part? (t.children.map fun c => (c.head, behaviour c)) .value with
      | none => exact ⟨pure (), rfl⟩
      | some e => exact ⟨e.value >>= fun _ => pure (), rfl⟩
    · rw [run_eq, Tracing.run.eq_def, show t.head.kind = _ from hkind]
      exact ⟨pure (), rfl⟩
  enclosed_map _ _ _ := rfl
  enclosed_of_not_declared _ _ _ := rfl

theorem tracing_run (t : Tree) : tracing.run t = (Tracing.behaviour t).run := rfl

end ScriptMin
