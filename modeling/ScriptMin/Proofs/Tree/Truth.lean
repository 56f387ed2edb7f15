import ScriptMin.Pass.Truth

/-!
Values of literals and truth of conditions. What is known of the truth of a condition without
running it is its truth whatever the truth of the parts is that are not looked into.
-/

namespace ScriptMin

/-! ### Literals -/

inductive Literal where
  | text (text : String)
  | number (value : Number)
  | truth (value : Bool)
  | null
  deriving DecidableEq, Repr

namespace Literal

def equal? : Literal → Literal → Option Bool
  | .text a, .text b => some (a == b)
  | .number a, .number b => some (a.eqv b)
  | .truth a, .truth b => some (a == b)
  | .null, .null => some true
  | _, _ => none

/-- Strict equality. Values of different types are not equal. -/
def strictlyEqual (a b : Literal) : Bool := (a.equal? b).getD false

end Literal

namespace Tree

variable {a b : Tree} {x y : Literal} {value : Bool} {v : List Nat → Bool} {ts : List Tree}

/-- Value of a literal. A number literal that carries no number is not a number. -/
def literal? (t : Tree) : Option Literal :=
  match t.kind with
  | .string => some (.text t.head.text)
  | .number => some (.number (t.head.number?.getD .undefined))
  | .trueLit => some (.truth true)
  | .falseLit => some (.truth false)
  | .nullLit => some .null
  | _ => none

theorem eqv_undefined (n : Number) : n.eqv .undefined = false := by
  simp [Number.eqv, show Number.undefined.isNaN = true by decide]

theorem undefined_eqv (n : Number) : Number.undefined.eqv n = false := by
  simp [Number.eqv, show Number.undefined.isNaN = true by decide]

/-- Literals that are compared are of the same type. -/
theorem equal?_of_literalsEqual? (h : literalsEqual? a b = some value) :
    ∃ x y, a.literal? = some x ∧ b.literal? = some y ∧ x.equal? y = some value := by
  rw [literalsEqual?] at h
  split at h
  case h_2 ha hb =>
      obtain ⟨m, hm, h⟩ := Option.bind_eq_some_iff.mp h
      obtain ⟨n, hn, h⟩ := Option.bind_eq_some_iff.mp h
      refine ⟨.number m, .number n, ?_, ?_, h⟩
      · rw [literal?, ha, hm, Option.getD_some]
      · rw [literal?, hb, hn, Option.getD_some]
  case h_8 => cases h
  all_goals
    rename_i ha hb
    simpa [literal?, ha, hb, Literal.equal?] using h

/-- Literals that have values are known to be equal where their values are strictly equal. -/
theorem literalsEqual?_eq_some_true (hx : a.literal? = some x) (hy : b.literal? = some y) :
    literalsEqual? a b = some true ↔ x.strictlyEqual y = true := by
  constructor
  · intro h
    obtain ⟨x', y', hx', hy', heq⟩ := equal?_of_literalsEqual? h
    rw [hx, Option.some_inj] at hx'
    rw [hy, Option.some_inj] at hy'
    rw [Literal.strictlyEqual, hx', hy', heq]
    rfl
  · intro h
    rw [literal?] at hx hy
    rw [literalsEqual?]
    split at hx <;> split at hy <;> cases hx <;> cases hy <;>
      simp_all [Literal.strictlyEqual, Literal.equal?]
    -- Only numbers can lack what they carry.
    cases hm : a.head.number? <;> cases hn : b.head.number? <;>
      simp_all [undefined_eqv, eqv_undefined]

/-! ### Conditions -/

/-- Equality of the first two of several literals of the same type. -/
def valuesEqual? : List Tree → Option Bool
  | left :: right :: _ => do (← left.literal?).equal? (← right.literal?)
  | _ => none

mutual
/-- Truth of a condition. The parts that are neither truth values, negations, conjunctions,
disjunctions nor comparisons of two literals of the same type have a given truth, each one by the
positions of the operands on the way to it. -/
def holds (v : List Nat → Bool) : Tree → Bool
  | .node head children =>
    match head.kind with
    | .trueLit => true
    | .falseLit => false
    | .not => !firstHolds v children
    | .and => firstHolds v children && secondHolds v children
    | .or => firstHolds v children || secondHolds v children
    | .eq | .strictEq => (valuesEqual? children).getD (v [])
    | .ne | .strictNe => ((valuesEqual? children).map (!·)).getD (v [])
    | _ => v []

def firstHolds (v : List Nat → Bool) : List Tree → Bool
  | [] => v []
  | t :: _ => holds (fun place => v (0 :: place)) t

def secondHolds (v : List Nat → Bool) : List Tree → Bool
  | [] => v []
  | _ :: rest => firstHolds (fun place => v (1 :: place)) rest
end

theorem valuesEqual?_of_operandsEqual? (h : operandsEqual? ts = some value) :
    valuesEqual? ts = some value := by
  rw [operandsEqual?.eq_def] at h
  split at h
  · obtain ⟨x, y, hx, hy, heq⟩ := equal?_of_literalsEqual? h
    rw [valuesEqual?, hx, hy]
    exact heq
  · cases h

theorem both_of_bothHold {p q : Option Bool} {left right : Bool} (h : bothHold p q = some value)
    (hp : ∀ b, p = some b → left = b) (hq : ∀ b, q = some b → right = b) :
    (left && right) = value := by
  rw [bothHold.eq_def] at h
  split at h <;> cases h
  · rw [hp _ rfl]
    rfl
  · rw [hq _ rfl]
    exact Bool.and_false _
  · rw [hp _ rfl, hq _ rfl]
    rfl

theorem either_of_eitherHolds {p q : Option Bool} {left right : Bool}
    (h : eitherHolds p q = some value) (hp : ∀ b, p = some b → left = b)
    (hq : ∀ b, q = some b → right = b) : (left || right) = value := by
  rw [eitherHolds.eq_def] at h
  split at h <;> cases h
  · rw [hp _ rfl]
    rfl
  · rw [hq _ rfl]
    exact Bool.or_true _
  · rw [hp _ rfl, hq _ rfl]
    rfl

mutual
/-- What is known of the truth of a condition is its truth. -/
theorem holds_eq_of_truth? : ∀ (t : Tree) (v : List Nat → Bool) (value : Bool),
    t.truth? = some value → t.holds v = value
  | .node head children, v, value, h => by
      have hfirst := firstHolds_eq_of_firstTruth? children v
      have hsecond := secondHolds_eq_of_secondTruth? children v
      rw [truth?] at h
      split at h
      case h_1 hkind => simpa [holds, hkind] using h
      case h_2 hkind => simpa [holds, hkind] using h
      case h_3 hkind =>
          obtain ⟨b, hb, rfl⟩ := Option.map_eq_some_iff.mp h
          simp only [holds, hkind, hfirst b hb]
      case h_4 hkind =>
          simp only [holds, hkind]
          exact both_of_bothHold h hfirst hsecond
      case h_5 hkind =>
          simp only [holds, hkind]
          exact either_of_eitherHolds h hfirst hsecond
      case h_6 hkind => simp only [holds, hkind, valuesEqual?_of_operandsEqual? h, Option.getD_some]
      case h_7 hkind => simp only [holds, hkind, valuesEqual?_of_operandsEqual? h, Option.getD_some]
      case h_8 hkind =>
          obtain ⟨b, hb, rfl⟩ := Option.map_eq_some_iff.mp h
          simp only [holds, hkind, valuesEqual?_of_operandsEqual? hb, Option.map_some, Option.getD_some]
      case h_9 hkind =>
          obtain ⟨b, hb, rfl⟩ := Option.map_eq_some_iff.mp h
          simp only [holds, hkind, valuesEqual?_of_operandsEqual? hb, Option.map_some, Option.getD_some]
      case h_10 => cases h

theorem firstHolds_eq_of_firstTruth? : ∀ (ts : List Tree) (v : List Nat → Bool) (value : Bool),
    firstTruth? ts = some value → firstHolds v ts = value
  | [], _, _, h => by cases h
  | t :: _, v, value, h => holds_eq_of_truth? t _ value h

theorem secondHolds_eq_of_secondTruth? : ∀ (ts : List Tree) (v : List Nat → Bool) (value : Bool),
    secondTruth? ts = some value → secondHolds v ts = value
  | [], _, _, h => by cases h
  | _ :: rest, v, value, h => firstHolds_eq_of_firstTruth? rest _ value h
end

end Tree

end ScriptMin
