import ScriptMin.Proofs.Pass.Switches
import ScriptMin.Proofs.Store.Graft
import ScriptMin.Proofs.Tree.Outline

/-!
Code that is not taken. A valuation gives values to the expressions of a script; it agrees with the
script if literals have their own values, and negations, conjunctions, disjunctions, conditional
expressions and comparisons of literals have those that follow from the values of their operands. A
condition is determined if it has the same truth whatever the values of the other expressions are.
-/

namespace ScriptMin

open Store

namespace Kind

/-- The truth of one operand that a conjunction or disjunction has too, whatever the other one is. -/
def decisive? : Kind → Option Bool
  | .and => some false
  | .or => some true
  | _ => none

theorem of_decisive? {kind : Kind} {b : Bool} (h : kind.decisive? = some b) :
    kind = .and ∧ b = false ∨ kind = .or ∧ b = true := by
  cases kind <;> cases h
  · exact .inr ⟨rfl, rfl⟩
  · exact .inl ⟨rfl, rfl⟩

end Kind

/-- Whether evaluating a node of the kind can have an effect of its own. -/
def Kind.isEffect : Kind → Bool
  | .call | .newBare | .newArgs | .assign | .increment | .decrement | .delete | .yieldOf => true
  | _ => false

/-- Values that no literal has, and what is to be known of them. -/
structure Objects where
  Object : Type
  same : Object → Object → Bool
  isTrue : Datum Object → Bool
  /-- The object that a regular expression stands for. -/
  pattern : Head → Object

structure Valuation extends Objects where
  value : NodeId → Datum Object

namespace Store

variable {s s' : Store} {id p q c x y : NodeId} {b : Bool} {i : Nat}

def condition? (s : Store) (id : NodeId) : Option NodeId :=
  match s.kind id with
  | .ifElse => s.child? id .condition
  | .conditional => s.nth? id 0
  | _ => none

/-- The part of an `if` or a conditional expression that a condition of some truth leads to. -/
def branch? (s : Store) (id : NodeId) (value : Bool) : Option NodeId :=
  match s.kind id with
  | .ifElse => s.child? id (if value then .thenPart else .elsePart)
  | .conditional => s.nth? id (if value then 1 else 2)
  | _ => none

end Store

namespace Objects

variable (O : Objects)

def accepts : Datum O.Object → Bool
  | .literal (.truth b) => b
  | other => O.isTrue other

def strictlyEqual : Datum O.Object → Datum O.Object → Bool
  | .literal a, .literal b => a.strictlyEqual b
  | .object a, .object b => O.same a b
  | _, _ => false

/-- Equality of two values, if they are values of literals of the same type. -/
def equal? : Datum O.Object → Datum O.Object → Option Bool
  | .literal a, .literal b => a.equal? b
  | _, _ => none

/-- The value of an expression by the values of its operands, where it is known how it depends on
them. -/
def result? (head : Head) (operands : List (Datum O.Object)) : Option (Datum O.Object) :=
  match head.kind, operands with
  | .regExp, _ => some (.object (O.pattern head.bare))
  | .not, a :: _ => some (.literal (.truth (!O.accepts a)))
  | .and, l :: rest => if O.accepts l then rest[0]? else some l
  | .or, l :: rest => if O.accepts l then some l else rest[0]?
  | .conditional, c :: branches => if O.accepts c then branches[0]? else branches[1]?
  | .eq, a :: b :: _ | .strictEq, a :: b :: _ => (O.equal? a b).map fun e => .literal (.truth e)
  | .ne, a :: b :: _ | .strictNe, a :: b :: _ => (O.equal? a b).map fun e => .literal (.truth !e)
  | _, _ => (Tree.node head []).literal?.map .literal

end Objects

namespace Valuation

variable (v : Valuation)

def holds (id : NodeId) : Bool := v.accepts (v.value id)

/-- The clause that a `switch` enters: the first one whose label is strictly equal to the value of
the `switch`, or the last default clause if there is none. -/
def entry? (s : Store) (switch : NodeId) : Option NodeId :=
  (Branches.clausesOf s switch).find? (fun clause =>
    s.kind clause != .defaultClause && (s.child? switch .discriminant).any fun d =>
      (s.child? clause .label).any fun l => v.strictlyEqual (v.value d) (v.value l)) <|>
    ((Branches.clausesOf s switch).filter (s.kind · == .defaultClause)).getLast?

/-- The values of the expressions of a script agree with each other. -/
def Agrees (s : Store) : Prop :=
  ∀ x, s.Within x s.root → ∀ d, v.result? (s.head x) ((s.children x).map v.value) = some d →
    v.value x = d

end Valuation

namespace Store

/-! ### What is not run -/

/-- A condition has a truth whatever the values of the expressions are that are not looked into. -/
def Determined (s : Store) (c : NodeId) (b : Bool) : Prop :=
  ∀ v : Valuation, v.Agrees s → v.holds c = b

/-- No run of the statement gets behind it, since there is a `break` without a label on the way. -/
inductive EndsInBreak (s : Store) : NodeId → Prop where
  | here {x : NodeId} : (s.view x).IsPlainBreak → EndsInBreak s x
  | block {x c : NodeId} : s.kind x = .block → c ∈ s.children x → EndsInBreak s c → EndsInBreak s x
  | branch {x c y : NodeId} {b : Bool} : s.kind x = .ifElse → s.condition? x = some c →
      s.Determined c b → s.branch? x b = some y → EndsInBreak s y → EndsInBreak s x

/-- A part of an `if`, a conditional expression, a conjunction or disjunction or a `switch` that is
not taken. -/
inductive Untaken (s : Store) : NodeId → Prop where
  | branch {id c p : NodeId} {b : Bool} : s.Within id s.root → s.condition? id = some c →
      s.Determined c b → s.branch? id (!b) = some p → Untaken s p
  | operand {id l p : NodeId} {b : Bool} : s.Within id s.root → (s.kind id).decisive? = some b →
      s.nth? id 0 = some l → s.Determined l b → s.nth? id 1 = some p → Untaken s p
  | clause {id p : NodeId} : s.Within id s.root → s.kind id = .switchCase →
      p ∈ Branches.clausesOf s id → (∀ v : Valuation, v.Agrees s → v.entry? s id ≠ some p) →
      (∀ c ∈ Branches.clausesOf s id, ∃ body, s.child? c .statements = some body ∧
        s.EndsInBreak body) → Untaken s p

/-- A part on which a condition depends through logic alone: it is the condition, or an operand of a
negation, conjunction or disjunction that is such a part, or the expression that a conditional
expression gives way to whose own condition is determined. -/
inductive Counts (s : Store) (c : NodeId) : NodeId → Prop where
  | whole : Counts s c c
  | negated {n a : NodeId} : Counts s c n → s.kind n = .not → s.nth? n 0 = some a → Counts s c a
  | operand {n a : NodeId} {b : Bool} {i : Nat} : Counts s c n → (s.kind n).decisive? = some b →
      i = 0 ∨ i = 1 → s.nth? n i = some a → Counts s c a
  | chosen {n d a : NodeId} {b : Bool} : Counts s c n → s.kind n = .conditional →
      s.condition? n = some d → s.Determined d b → s.branch? n b = some a → Counts s c a

/-- A node lies in the first operand of a conjunction or disjunction whose truth the second operand
determines alone, and the condition of an `if` or a conditional expression that is determined
depends through logic alone on the conjunction or disjunction. -/
structure Masked (s : Store) (x : NodeId) : Prop where
  outweighed : ∃ id c b', s.Within id s.root ∧ s.condition? id = some c ∧ s.Determined c b' ∧
    ∃ n l r b, s.Counts c n ∧ (s.kind n).decisive? = some b ∧ s.nth? n 0 = some l ∧
      s.nth? n 1 = some r ∧ s.Within x l ∧ s.Determined r b

/-- A node lies in what is not taken or in an operand that makes no difference to a condition that is
determined. -/
def Needless (s : Store) (x : NodeId) : Prop := (∃ p, s.Within x p ∧ s.Untaken p) ∨ s.Masked x

end Store

/-! ### Values that agree -/

theorem Store.exists_cons_of_nth? {s : Store} {x a : NodeId} (h : s.nth? x 0 = some a) :
    ∃ rest, s.children x = a :: rest := by
  rw [nth?] at h
  cases hcase : s.children x with
  | nil =>
      rw [hcase] at h
      cases h
  | cons first rest =>
      rw [hcase] at h
      exact ⟨rest, congrArg (· :: rest) (Option.some_inj.mp h)⟩

namespace Objects

def unknown : Objects where
  Object := Unit
  same _ _ := true
  isTrue _ := true
  pattern _ := ()

mutual
/-- The value of an expression that follows from those of its operands, or else an object. -/
def worth : Tree → Datum Unit
  | .node head children => (unknown.result? head (worths children)).getD (.object ())

def worths : List Tree → List (Datum Unit)
  | [] => []
  | t :: rest => worth t :: worths rest
end

theorem worths_eq_map (ts : List Tree) : worths ts = ts.map worth := by
  induction ts with
  | nil => rfl
  | cons t ts ih => exact congrArg (worth t :: ·) ih

variable {O : Objects} {t : Tree} {literal : Literal} {ds : List (Datum O.Object)}

theorem result?_of_literal? (h : t.literal? = some literal) :
    O.result? t.head ds = some (.literal literal) := by
  obtain ⟨head, children⟩ := t
  have hbare : (Tree.node head []).literal? = some literal := h
  rw [Tree.literal?] at h
  rw [result?.eq_def]
  split
  case h_10 => rw [Tree.head, hbare]; rfl
  all_goals
    rename_i hkind
    rw [show (Tree.node head children).kind = head.kind from rfl] at h
    simp only [Tree.head] at hkind
    rw [hkind] at h
    cases h

end Objects

namespace Valuation

variable {s : Store} {v : Valuation} {x a c l r : NodeId} {b : Bool} {literal : Literal}

/-- There are values that agree with each other. -/
theorem exists_agrees (hs : s.Forest) : ∃ v : Valuation, v.Agrees s := by
  refine ⟨⟨.unknown, fun x => Objects.worth (s.view x)⟩, fun x _ d hd => ?_⟩
  change Objects.worth (s.view x) = d
  rw [hs.view_eq_node, Objects.worth, Objects.worths_eq_map, List.map_map]
  exact congrArg (fun o => Option.getD o (.object ())) hd

theorem Agrees.value_literal (h : v.Agrees s) (hx : s.Within x s.root)
    (hliteral : (s.view x).literal? = some literal) : v.value x = .literal literal := by
  refine h x hx _ ?_
  rw [← head_view]
  exact Objects.result?_of_literal? hliteral

theorem Agrees.holds_of_result? (h : v.Agrees s) (hx : s.Within x s.root) {kind : Kind}
    {ids : List NodeId} {d : Datum v.Object} (hkind : s.kind x = kind) (hids : s.children x = ids)
    (hd : v.result? { s.head x with kind } (ids.map v.value) = some d) : v.holds x = v.accepts d := by
  subst hkind hids
  exact congrArg v.accepts (h x hx d hd)

/-- A negation has the other truth. -/
theorem Agrees.holds_not (h : v.Agrees s) (hx : s.Within x s.root) (hkind : s.kind x = .not)
    (ha : s.nth? x 0 = some a) : v.holds x = !v.holds a := by
  obtain ⟨rest, hids⟩ := exists_cons_of_nth? ha
  exact h.holds_of_result? hx hkind hids rfl

/-- The first operand of a connective can decide its truth. -/
theorem Agrees.holds_of_first (h : v.Agrees s) (hx : s.Within x s.root)
    (hkind : (s.kind x).decisive? = some b) (hl : s.nth? x 0 = some l) (hholds : v.holds l = b) :
    v.holds x = b := by
  obtain ⟨rest, hids⟩ := exists_cons_of_nth? hl
  obtain ⟨hand, rfl⟩ | ⟨hor, rfl⟩ := Kind.of_decisive? hkind
  · exact (h.holds_of_result? hx hand hids (if_neg (Bool.eq_false_iff.mp hholds))).trans hholds
  · exact (h.holds_of_result? hx hor hids (if_pos hholds)).trans hholds

/-- Where the first operand does not decide the truth of a connective, the second one does. -/
theorem Agrees.holds_of_second (h : v.Agrees s) (hx : s.Within x s.root)
    (hkind : (s.kind x).decisive? = some b) (hl : s.nth? x 0 = some l) (hr : s.nth? x 1 = some r)
    (hholds : v.holds l ≠ b) : v.holds x = v.holds r := by
  obtain ⟨rest, hids⟩ := exists_cons_of_nth? hl
  have hrest : rest[0]? = some r := by rwa [nth?, hids, List.getElem?_cons_succ] at hr
  have hsecond : (rest.map v.value)[0]? = some (v.value r) := by
    rw [List.getElem?_map, hrest, Option.map_some]
  obtain ⟨hand, rfl⟩ | ⟨hor, rfl⟩ := Kind.of_decisive? hkind
  · refine h.holds_of_result? hx hand hids ((if_pos ?_).trans hsecond)
    exact (Bool.not_eq_false _).mp hholds
  · exact h.holds_of_result? hx hor hids ((if_neg hholds).trans hsecond)

/-- A comparison of two literals of the same type has a known truth. -/
theorem Agrees.holds_comparison (h : v.Agrees s) (hx : s.Within x s.root) {y z : NodeId}
    {ids : List NodeId} {m n : Literal} {e : Bool} (hids : s.children x = y :: z :: ids)
    (hy : (s.view y).literal? = some m) (hz : (s.view z).literal? = some n)
    (he : m.equal? n = some e) (hs : s.Linked) :
    (s.kind x = .eq ∨ s.kind x = .strictEq → v.holds x = e) ∧
      (s.kind x = .ne ∨ s.kind x = .strictNe → v.holds x = !e) := by
  have hlink : ∀ c ∈ s.children x, s.Within c s.root := fun c hc =>
    (within_of_parent (hs.parent?_of_mem hc)).trans hx
  have hequal : v.equal? (v.value y) (v.value z) = some e := by
    rw [h.value_literal (hlink y (by simp [hids])) hy,
      h.value_literal (hlink z (by simp [hids])) hz]
    exact he
  constructor
  · rintro (hkind | hkind) <;>
      exact h.holds_of_result? hx hkind hids (congrArg (Option.map _) hequal)
  · rintro (hkind | hkind) <;>
      exact h.holds_of_result? hx hkind hids (congrArg (Option.map _) hequal)

end Valuation

namespace Store

variable {s : Store} {c l r : NodeId} {b value : Bool} {ids : List NodeId}

theorem nth?_within (hs : s.Linked) (hc : s.Within c s.root) {i : Nat} (h : s.nth? c i = some l) :
    s.Within l s.root :=
  (within_of_parent (hs.parent?_of_mem (mem_of_nth? h))).trans hc

/-- What the truth of a condition is known by. -/
inductive Known (s : Store) : NodeId → Bool → Prop where
  | literal {c : NodeId} {b : Bool} : (s.view c).literal? = some (.truth b) → Known s c b
  | negation {c a : NodeId} {b : Bool} : s.kind c = .not → s.nth? c 0 = some a → Known s a b →
      Known s c (!b)
  | first {c l : NodeId} {b : Bool} : (s.kind c).decisive? = some b → s.nth? c 0 = some l →
      Known s l b → Known s c b
  | second {c l r : NodeId} {b : Bool} : (s.kind c).decisive? = some b → s.nth? c 0 = some l →
      s.nth? c 1 = some r → Known s r b → Known s c b
  | both {c l r : NodeId} {b : Bool} : (s.kind c).decisive? = some b → s.nth? c 0 = some l →
      s.nth? c 1 = some r → Known s l (!b) → Known s r (!b) → Known s c (!b)
  | equality {c y z : NodeId} {rest : List NodeId} {m n : Literal} {b : Bool} :
      s.kind c = .eq ∨ s.kind c = .strictEq → s.children c = y :: z :: rest →
      (s.view y).literal? = some m → (s.view z).literal? = some n → m.equal? n = some b →
      Known s c b
  | inequality {c y z : NodeId} {rest : List NodeId} {m n : Literal} {b : Bool} :
      s.kind c = .ne ∨ s.kind c = .strictNe → s.children c = y :: z :: rest →
      (s.view y).literal? = some m → (s.view z).literal? = some n → m.equal? n = some b →
      Known s c (!b)

/-- What is known of the truth of a condition is its truth under all values that agree. -/
theorem Known.determined (h : s.Known c value) (hs : s.Linked) (hc : s.Within c s.root) :
    s.Determined c value := by
  induction h with
  | literal hliteral => exact fun v hv => congrArg v.accepts (hv.value_literal hc hliteral)
  | negation hkind ha _ ih =>
      exact fun v hv => (hv.holds_not hc hkind ha).trans
        (congrArg (!·) (ih (nth?_within hs hc ha) v hv))
  | first hkind hl _ ih =>
      exact fun v hv => hv.holds_of_first hc hkind hl (ih (nth?_within hs hc hl) v hv)
  | @second c l r b hkind hl hr _ ih =>
      intro v hv
      by_cases hleft : v.holds l = b
      · exact hv.holds_of_first hc hkind hl hleft
      · rw [hv.holds_of_second hc hkind hl hr hleft, ih (nth?_within hs hc hr) v hv]
  | @both c l r b hkind hl hr _ _ ihl ihr =>
      intro v hv
      have hleft : v.holds l ≠ b := by
        rw [ihl (nth?_within hs hc hl) v hv]
        exact Bool.not_ne_self b
      rw [hv.holds_of_second hc hkind hl hr hleft, ihr (nth?_within hs hc hr) v hv]
  | equality hkind hids hm hn he =>
      exact fun v hv => (hv.holds_comparison hc hids hm hn he hs).1 hkind
  | inequality hkind hids hm hn he =>
      exact fun v hv => (hv.holds_comparison hc hids hm hn he hs).2 hkind

/-- No condition has two truths. -/
theorem Forest.determined_unique (hs : s.Forest) {b' : Bool} (h : s.Determined c b)
    (h' : s.Determined c b') : b = b' := by
  obtain ⟨v, hv⟩ := Valuation.exists_agrees hs
  exact (h v hv).symm.trans (h' v hv)

/-! ### Seats -/

/-- The parts of a node that decide what is run have their places. -/
def Seated (s : Store) : Prop :=
  ∀ p i c, s.Within p s.root → s.nth? p i = some c → (s.head p).Seats i (s.head c)

theorem Seated.seats_of_kind (h : s.Seated) {p : NodeId} {i : Nat} {kind : Kind}
    (hp : s.Within p s.root) (hkind : s.kind p = kind) (hc : s.nth? p i = some c) :
    Head.Seats { s.head p with kind } i (s.head c) := by
  subst hkind
  exact h p i c hp hc

/-- What lies below a node lies below one of its children. -/
theorem Linked.exists_nth?_of_within (hs : s.Linked) {x y : NodeId} (h : s.Within x y)
    (hne : x ≠ y) : ∃ i c, s.nth? y i = some c ∧ s.Within x c := by
  rcases Relation.ReflTransGen.cases_tail h with rfl | ⟨c, hxc, hc⟩
  · exact absurd rfl hne
  · obtain ⟨i, hi⟩ := List.getElem?_of_mem ((hs.linked y c).mpr hc)
    exact ⟨i, c, hi, hxc⟩

/-- In a literal there is nothing else. -/
theorem Sound.eq_of_within_literal (hs : s.Sound) {x y : NodeId} {literal : Literal}
    (hliteral : (s.view y).literal? = some literal) (h : s.Within x y) : x = y := by
  by_contra hne
  obtain ⟨i, c, hc, -⟩ := hs.toLinked.exists_nth?_of_within h hne
  have hhosts := (hs.formed y).hosts i c hc
  rw [Head.Hosts] at hhosts
  have hkind := Branches.isLiteral_of_literal? hliteral
  rw [kind_view] at hkind
  rw [Tree.literal?, kind_view, kind] at hliteral
  split at hhosts <;> simp_all

theorem Kind.isEffect_of_literal? {t : Tree} {literal : Literal} (h : t.literal? = some literal) :
    t.kind.isEffect = false := by
  rw [Tree.literal?] at h
  cases hkind : t.kind <;> rw [hkind] at h <;> first | rfl | cases h

/-- An effect does not lie in a literal. -/
theorem Sound.not_within_literal (hs : s.Sound) {x y : NodeId} {literal : Literal}
    (hliteral : (s.view y).literal? = some literal) (heffect : (s.kind x).isEffect) :
    ¬ s.Within x y := by
  intro h
  obtain rfl := hs.eq_of_within_literal hliteral h
  have hnone := Kind.isEffect_of_literal? hliteral
  rw [kind_view, heffect] at hnone
  cases hnone

/-- The operands of a connective or comparison are its first two children. -/
theorem Seated.operand (h : s.Seated) {p : NodeId} {i : Nat} (hp : s.Within p s.root)
    (hkind : (s.kind p).decisive?.isSome ∨ s.kind p = .eq ∨ s.kind p = .strictEq ∨
      s.kind p = .ne ∨ s.kind p = .strictNe) (hc : s.nth? p i = some c) : i = 0 ∨ i = 1 := by
  rw [← Nat.le_one_iff_eq_zero_or_eq_one]
  rcases hkind with hkind | hkind | hkind | hkind | hkind
  · obtain ⟨b, hb⟩ := Option.isSome_iff_exists.mp hkind
    obtain ⟨hand, -⟩ | ⟨hor, -⟩ := Kind.of_decisive? hb
    · exact h.seats_of_kind hp hand hc
    · exact h.seats_of_kind hp hor hc
  all_goals exact h.seats_of_kind hp hkind hc

/-- What a condition depends on through logic alone is a part of it. -/
theorem Counts.within {n : NodeId} (h : s.Counts c n) (hs : s.Linked) : s.Within n c := by
  have hpart : ∀ {n a : NodeId}, a ∈ s.children n → s.Within n c → s.Within a c :=
    fun ha hn => (within_of_parent (hs.parent?_of_mem ha)).trans hn
  induction h with
  | whole => exact .refl
  | negated _ _ ha ih => exact hpart (mem_of_nth? ha) ih
  | operand _ _ _ ha ih => exact hpart (mem_of_nth? ha) ih
  | chosen _ hkind _ _ ha ih =>
      rw [branch?, hkind] at ha
      exact hpart (mem_of_nth? ha) ih

/-- An effect in a condition whose truth is known lies in what is not taken or makes no difference
to the condition. -/
theorem Known.idle {x id c₀ : NodeId} {b₀ : Bool} (h : s.Known c value) (hs : s.Sound)
    (hseats : s.Seated) (hid : s.Within id s.root) (hcondition : s.condition? id = some c₀)
    (hdetermined₀ : s.Determined c₀ b₀) (hroot : s.Within c₀ s.root) (hcounts : s.Counts c₀ c)
    (hx : s.Within x c) (heffect : (s.kind x).isEffect) : s.Needless x := by
  have hlink := hs.toLinked
  have hattached : ∀ {y : NodeId}, s.Counts c₀ y → s.Within y s.root :=
    fun hy => (hy.within hlink).trans hroot
  have hbelow : ∀ {y : NodeId}, s.Within x y → (s.kind y).isEffect = false →
      ∃ i a, s.nth? y i = some a ∧ s.Within x a := by
    intro y hy hkind
    refine hlink.exists_nth?_of_within hy ?_
    rintro rfl
    rw [heffect] at hkind
    cases hkind
  have hdecisive : ∀ {y : NodeId} {b : Bool}, (s.kind y).decisive? = some b →
      (s.kind y).isEffect = false := by
    intro y b hb
    obtain ⟨hkind, -⟩ | ⟨hkind, -⟩ := Kind.of_decisive? hb <;> rw [hkind] <;> rfl
  have hcomparison : ∀ {y a b : NodeId} {rest : List NodeId} {m n : Literal},
      s.Counts c₀ y → s.kind y = .eq ∨ s.kind y = .strictEq ∨ s.kind y = .ne ∨ s.kind y = .strictNe →
      s.children y = a :: b :: rest → (s.view a).literal? = some m →
      (s.view b).literal? = some n → s.Within x y → False := by
    intro y a b rest m n hy hkind hids hm hn hx
    have hplain : (s.kind y).isEffect = false := by
      rcases hkind with hkind | hkind | hkind | hkind <;> rw [hkind] <;> rfl
    obtain ⟨i, ch, hch, hxch⟩ := hbelow hx hplain
    have hplace := hseats.operand (hattached hy) (.inr hkind) hch
    rw [nth?, hids] at hch
    obtain rfl | rfl := hplace
    · cases hch
      exact hs.not_within_literal hm heffect hxch
    · cases hch
      exact hs.not_within_literal hn heffect hxch
  induction h with
  | literal hliteral => exact absurd hx (hs.not_within_literal hliteral heffect)
  | negation hkind ha _ ih =>
      obtain ⟨i, ch, hch, hxch⟩ := hbelow hx (by rw [hkind]; rfl)
      obtain rfl : i = 0 := hseats.seats_of_kind (hattached hcounts) hkind hch
      rw [ha, Option.some_inj] at hch
      exact ih (hcounts.negated hkind ha) (hch ▸ hxch)
  | first hkind hl hknown ih =>
      obtain ⟨i, ch, hch, hxch⟩ := hbelow hx (hdecisive hkind)
      obtain rfl | rfl := hseats.operand (hattached hcounts) (.inl (by rw [hkind]; rfl)) hch
      · rw [hl, Option.some_inj] at hch
        exact ih (hcounts.operand hkind (.inl rfl) hl) (hch ▸ hxch)
      · have hdetermined := hknown.determined hlink (nth?_within hlink (hattached hcounts) hl)
        exact .inl ⟨ch, hxch, .operand (hattached hcounts) hkind hl hdetermined hch⟩
  | second hkind hl hr hknown ih =>
      obtain ⟨i, ch, hch, hxch⟩ := hbelow hx (hdecisive hkind)
      obtain rfl | rfl := hseats.operand (hattached hcounts) (.inl (by rw [hkind]; rfl)) hch
      · have hdetermined := hknown.determined hlink (nth?_within hlink (hattached hcounts) hr)
        rw [hl, Option.some_inj] at hch
        subst hch
        exact .inr ⟨_, _, _, hid, hcondition, hdetermined₀, _, _, _, _, hcounts, hkind, hl, hr, hxch,
          hdetermined⟩
      · rw [hr, Option.some_inj] at hch
        exact ih (hcounts.operand hkind (.inr rfl) hr) (hch ▸ hxch)
  | both hkind hl hr _ _ ihl ihr =>
      obtain ⟨i, ch, hch, hxch⟩ := hbelow hx (hdecisive hkind)
      obtain rfl | rfl := hseats.operand (hattached hcounts) (.inl (by rw [hkind]; rfl)) hch
      · rw [hl, Option.some_inj] at hch
        exact ihl (hcounts.operand hkind (.inl rfl) hl) (hch ▸ hxch)
      · rw [hr, Option.some_inj] at hch
        exact ihr (hcounts.operand hkind (.inr rfl) hr) (hch ▸ hxch)
  | equality hkind hids hm hn =>
      exact (hcomparison hcounts (hkind.imp_right .inl) hids hm hn hx).elim
  | inequality hkind hids hm hn =>
      exact (hcomparison hcounts (.inr (.inr hkind)) hids hm hn hx).elim

end Store

end ScriptMin
