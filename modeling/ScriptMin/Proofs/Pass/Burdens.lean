import ScriptMin.Proofs.Pass.Merging
import ScriptMin.Proofs.Tree.Weight

/-!
What a reduction has to lower. Statements that a reduction may dissolve or merge count more than
other nodes, and so do parentheses and second branches. Whatever takes the place of an `if` that is
reduced is a lighter burden than the `if`.
-/

namespace ScriptMin

namespace Kind

def burden : Kind → Nat
  | .block => 3
  | .ifElse | .semicolon => 2
  | _ => 1

theorem burden_pos (kind : Kind) : 0 < kind.burden := by cases kind <;> decide

end Kind

def roleBurden : Option Role → Nat
  | some .elsePart => 1
  | _ => 0

def Head.burden (h : Head) : Nat :=
  h.kind.burden + (if h.flags.parenthesized then 1 else 0) + roleBurden h.role

abbrev Tree.burden (t : Tree) : Nat := t.weight Head.burden

abbrev Tree.burdenList (ts : List Tree) : Nat := Tree.weightList Head.burden ts

namespace Tree

variable {t c p q e : Tree} {role : Option Role} {part : Option Tree} {news : List Tree}

theorem burden_inRole (t : Tree) (role : Option Role) :
    (t.inRole role).burden + roleBurden t.head.role =
    t.burden + roleBurden role := by
  simp only [burden, weight_eq, head_inRole, children_inRole, Head.burden]
  omega

theorem burden_inRole_none_le : (t.inRole none).burden ≤ t.burden := by
  have h := burden_inRole t none
  rw [show roleBurden none = 0 from rfl] at h
  omega

theorem burden_inRole_le (t : Tree) (role : Option Role) :
    (t.inRole role).burden ≤ t.burden + roleBurden role := by
  have h := burden_inRole t role
  omega

theorem burdenList_inRole_none_le (ts : List Tree) :
    burdenList (ts.map (·.inRole none)) ≤ burdenList ts := by
  induction ts with
  | nil => simp
  | cons t rest ih =>
      have ht := burden_inRole_none_le (t := t)
      simp only [burdenList, burden, List.map_cons, weightList_cons] at *
      omega

theorem head_le_burden (t : Tree) :
    t.kind.burden + roleBurden t.head.role + burdenList t.children ≤ t.burden := by
  rw [burden, burdenList, weight_eq, Head.burden, Tree.kind]
  omega

theorem burden_pos (t : Tree) : 0 < t.burden := by
  have hhead := head_le_burden t
  have hkind := t.kind.burden_pos
  omega

/-- A tree bears what its topmost node and one of its parts do. -/
theorem burden_of_child? {r : Role} (h : t.child? r = some c) :
    t.kind.burden + roleBurden t.head.role + c.burden ≤ t.burden := by
  have hsum := sum_weight_find?_le (w := Head.burden) t.children (List.nodup_singleton r)
  have hhead := head_le_burden t
  rw [child?] at h
  simp only [h, List.map_cons, List.map_nil, List.sum_cons, List.sum_nil, Option.map_some,
    Option.getD_some] at hsum
  simp only [burdenList, burden] at *
  omega

theorem burden_of_nth?_nth? (hfirst : t.nth? 0 = some c) (hsecond : t.nth? 1 = some p) :
    t.kind.burden + roleBurden t.head.role + c.burden + p.burden ≤ t.burden := by
  have hhead := head_le_burden t
  rw [nth?] at hfirst hsecond
  cases hchildren : t.children with
  | nil => rw [hchildren] at hfirst; cases hfirst
  | cons first rest =>
      cases rest with
      | nil => rw [hchildren] at hsecond; cases hsecond
      | cons second rest =>
          rw [hchildren] at hfirst hsecond hhead
          obtain rfl := Option.some_inj.mp hfirst
          obtain rfl := Option.some_inj.mp hsecond
          simp only [burdenList, burden, weightList_cons] at *
          omega

theorem burden_of_nth? {i : Nat} (h : t.nth? i = some c) :
    t.kind.burden + roleBurden t.head.role + c.burden ≤ t.burden := by
  have hhead := head_le_burden t
  obtain ⟨before, behind, hsplit⟩ := List.append_of_mem (List.mem_of_getElem? h)
  rw [hsplit] at hhead
  simp only [burdenList, burden, weightList_append, weightList_cons] at *
  omega

/-- An `if` bears what its condition and its branches do. -/
theorem IsIf.burden_le (h : t.IsIf c p part) :
    2 + roleBurden t.head.role + c.burden + p.burden + burdenList part.toList ≤ t.burden := by
  have hroles : [Role.condition, .thenPart, .elsePart].Nodup := by decide
  have hsum := sum_weight_find?_le (w := Head.burden) t.children hroles
  have hhead := head_le_burden t
  have hcondition := h.condition
  have hthen := h.thenPart
  have helse := h.elsePart
  rw [child?] at hcondition hthen helse
  simp only [hcondition, hthen, helse, List.map_cons, List.map_nil, List.sum_cons, List.sum_nil,
    Option.map_some, Option.getD_some] at hsum
  rw [h.kind, Kind.burden] at hhead
  cases part with
  | none => simp_all [burdenList, burden]; omega
  | some q => simp_all [burdenList, burden]; omega

theorem burden_of_expression? (h : p.expression? = some e) : 2 + e.burden ≤ p.burden := by
  rw [expression?] at h
  split at h
  case isTrue hkind =>
      have hchild := burden_of_child? h
      rw [hkind, show Kind.burden .semicolon = 2 from rfl] at hchild
      omega
  case isFalse => cases h

theorem burden_of_returned? (h : p.returned? = some e) : 1 + e.burden ≤ p.burden := by
  rw [returned?] at h
  split at h
  case isTrue hkind =>
      have hchild := burden_of_child? h
      rw [hkind, show Kind.burden .returnStmt = 1 from rfl] at hchild
      omega
  case isFalse => cases h

end Tree

namespace Conditions

open ScriptMin.Tree

variable {t c a b x : Tree} {news : List Tree} {kind : Kind} {span : Span} {op : Option Kind}
  {role : Option Role}

/-! ### The burden of new trees -/

theorem burden_choice_le : (choice c a b).burden ≤ 1 + c.burden + a.burden + b.burden := by
  have hc := burden_inRole_none_le (t := c)
  have ha := burden_inRole_none_le (t := a)
  have hb := burden_inRole_none_le (t := b)
  simp only [choice, burden, weight_node, weightList_cons, weightList_nil, Head.burden,
    Kind.burden, roleBurden] at *
  simp only [Bool.false_eq_true, if_false]
  omega

theorem burden_performing_le : (performing a).burden ≤ 2 + a.burden := by
  have ha := burden_inRole_le a (some .expression)
  simp only [performing, burden, weight_node, weightList_cons, weightList_nil, Head.burden,
    Kind.burden, roleBurden] at *
  simp only [Bool.false_eq_true, if_false]
  omega

theorem burden_returning_le : (returning span a).burden ≤ 1 + a.burden := by
  have ha := burden_inRole_le a (some .value)
  simp only [returning, burden, weight_node, weightList_cons, weightList_nil, Head.burden,
    Kind.burden, roleBurden] at *
  simp only [Bool.false_eq_true, if_false]
  omega

theorem burden_assigning : (assigning span op x a).burden = 1 + x.burden + a.burden := by
  simp only [assigning, burden, weight_node, weightList_cons, weightList_nil, Head.burden,
    Kind.burden, roleBurden]
  simp only [Bool.false_eq_true, if_false]
  omega

theorem burden_joining_le (hkind : kind.burden = 1) :
    (joining kind span a b).burden ≤ 1 + a.burden + b.burden := by
  have ha := burden_inRole_none_le (t := a)
  have hb := burden_inRole_none_le (t := b)
  simp only [joining, burden, weight_node, weightList_cons, weightList_nil, Head.burden,
    hkind, roleBurden] at *
  simp only [Bool.false_eq_true, if_false]
  omega

theorem burdenList_statementsOf_le (t : Tree) :
    burdenList (statementsOf t) + (if t.kind = .block then 3 + roleBurden t.head.role else 0) ≤
      t.burden := by
  rw [statementsOf]
  split
  case isTrue hkind =>
      have hhead := head_le_burden t
      rw [hkind, Kind.burden] at hhead
      omega
  case isFalse => simp [burdenList, burden]

/-! ### Reductions -/

/-- What takes the place of an `if` is a lighter burden. -/
theorem Reduces.lighter (h : Reduces t news) : burdenList news < t.burden := by
  cases h with
  | @returns c p q a b parts first second =>
      have ht := parts.burden_le
      have hp := burden_of_returned? first
      have hq := burden_of_returned? second
      have hnew := burden_inRole_le (returning t.span (choice c a b)) t.head.role
      have hreturning : (returning t.span (choice c a b)).burden ≤ _ := burden_returning_le
      have hchoice := burden_choice_le (c := c) (a := a) (b := b)
      simp only [burdenList, burden, Option.toList_some, weightList_cons, weightList_nil] at *
      omega
  | @assigns c p q e f x y a b parts first second alike =>
      have ht := parts.burden_le
      have hp := burden_of_expression? first
      have hq := burden_of_expression? second
      have he := burden_of_nth?_nth? alike.target_first alike.value_first
      rw [alike.kind_first, show Kind.burden .assign = 1 from rfl] at he
      have hb := burden_of_nth? alike.value_second
      have hnew := burden_inRole_le
        (performing (assigning t.span e.head.assignOp x (choice c a b))) t.head.role
      have hperforming := burden_performing_le
        (a := assigning t.span e.head.assignOp x (choice c a b))
      rw [burden_assigning] at hperforming
      have hchoice := burden_choice_le (c := c) (a := a) (b := b)
      simp only [burdenList, burden, Option.toList_some, weightList_cons, weightList_nil] at *
      omega
  | @chooses c p q a b parts first second =>
      have ht := parts.burden_le
      have hp := burden_of_expression? first
      have hq := burden_of_expression? second
      have hnew := burden_inRole_le (performing (choice c a b)) t.head.role
      have hperforming := burden_performing_le (a := choice c a b)
      have hchoice := burden_choice_le (c := c) (a := a) (b := b)
      simp only [burdenList, burden, Option.toList_some, weightList_cons, weightList_nil] at *
      omega
  | @disjoins c d p a parts negation operand first =>
      have ht := parts.burden_le
      have hp := burden_of_expression? first
      have hc := burden_of_nth? operand
      have hnew := burden_inRole_le (performing (joining .or t.span d a)) t.head.role
      have hperforming := burden_performing_le (a := joining .or t.span d a)
      have hjoining : (joining .or t.span d a).burden ≤ _ := burden_joining_le rfl
      simp only [burdenList, burden, Option.toList_none, weightList_cons, weightList_nil] at *
      omega
  | @conjoins c p a parts first =>
      have ht := parts.burden_le
      have hp := burden_of_expression? first
      have hnew := burden_inRole_le (performing (joining .and t.span c a)) t.head.role
      have hperforming := burden_performing_le (a := joining .and t.span c a)
      have hjoining : (joining .and t.span c a).burden ≤ _ := burden_joining_le rfl
      simp only [burdenList, burden, Option.toList_none, weightList_cons, weightList_nil] at *
      omega
  | @lifts c p q before behind parts split leaves plain =>
      have hrole : q.head.role = some .elsePart := by
        simpa using List.find?_some parts.elsePart
      have ht : t.burden = t.head.burden + burdenList (before ++ q :: behind) := by
        rw [burden, weight_eq, split]
      have hstatements := burdenList_statementsOf_le q
      have hplain := burdenList_inRole_none_le (statementsOf q)
      have hlast : burdenList ((statementsOf q).map (·.inRole none)) < q.burden := by
        by_cases hkind : q.kind = .block
        · rw [if_pos hkind] at hstatements
          omega
        · have hq := burden_inRole q none
          rw [hrole] at hq
          rw [statementsOf, if_neg hkind]
          simp only [burdenList, burden, roleBurden, List.map_cons, List.map_nil, weightList_cons,
            weightList_nil] at *
          omega
      simp only [burdenList, burden, weightList_cons, weightList_append, weight_node] at *
      omega

end Conditions

end ScriptMin
