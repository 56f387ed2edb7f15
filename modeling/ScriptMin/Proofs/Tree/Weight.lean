import Mathlib.Algebra.BigOperators.Group.List.Basic
import Mathlib.Algebra.Order.BigOperators.Group.List
import Mathlib.Algebra.Ring.Nat
import ScriptMin.Proofs.Store.Rewriting
import ScriptMin.Proofs.Tree.Parts

/-!
Weights of trees. Every node weighs something, and a tree weighs as much as its nodes together. A
tree one part of which gives way to lighter parts gets lighter by the difference.
-/

namespace ScriptMin

namespace Tree

variable {w : Head → Nat} {t t' old : Tree} {ts news : List Tree} {roles : List Role}

mutual
/-- Weight of a tree whose nodes weigh what their heads do. -/
def weight (w : Head → Nat) : Tree → Nat
  | .node head children => w head + weightList w children

def weightList (w : Head → Nat) : List Tree → Nat
  | [] => 0
  | t :: rest => weight w t + weightList w rest
end

@[simp] theorem weight_node (head : Head) (children : List Tree) :
    weight w (.node head children) = w head + weightList w children := by
  rw [weight]

@[simp] theorem weightList_nil : weightList w [] = 0 := by rw [weightList]

@[simp] theorem weightList_cons (t : Tree) (rest : List Tree) :
    weightList w (t :: rest) = weight w t + weightList w rest := by
  rw [weightList]

@[simp] theorem weightList_append (ts ts' : List Tree) :
    weightList w (ts ++ ts') = weightList w ts + weightList w ts' := by
  induction ts with
  | nil => simp
  | cons t rest ih => simp [ih, Nat.add_assoc]

theorem weightList_eq_sum (ts : List Tree) : weightList w ts = (ts.map (weight w)).sum := by
  induction ts with
  | nil => simp
  | cons t rest ih => simp [ih]

theorem weight_eq (t : Tree) : weight w t = w t.head + weightList w t.children := by
  cases t
  exact weight_node _ _

/-- The parts of a tree that are found by different roles are different parts. -/
theorem sum_weight_find?_le (ts : List Tree) (hroles : roles.Nodup) :
    (roles.map fun role =>
      ((ts.find? fun c => c.head.role == some role).map (weight w)).getD 0).sum ≤
        weightList w ts := by
  induction ts with
  | nil => simp
  | cons t rest ih =>
      rw [weightList_cons]
      -- The first part is found by its own role only.
      by_cases hmem : ∃ role ∈ roles, t.head.role = some role
      · obtain ⟨role, hmem, hrole⟩ := hmem
        obtain ⟨before, behind, rfl⟩ := List.append_of_mem hmem
        have hnodup := List.nodup_append.mp hroles
        have hother : ∀ other ∈ before ++ behind,
            (t :: rest).find? (fun c => c.head.role == some other) =
              rest.find? fun c => c.head.role == some other := by
          intro other hother
          refine List.find?_cons_of_neg ?_
          rw [hrole, beq_iff_eq, Option.some_inj]
          rintro rfl
          rcases List.mem_append.mp hother with h | h
          · exact hnodup.2.2 _ h _ List.mem_cons_self rfl
          · exact (List.nodup_cons.mp hnodup.2.1).1 h
        have hself : (t :: rest).find? (fun c => c.head.role == some role) = some t :=
          List.find?_cons_of_pos (by rw [hrole, beq_self_eq_true])
        have hmap : ∀ l ⊆ before ++ behind, (l.map fun role =>
            (((t :: rest).find? fun c => c.head.role == some role).map (weight w)).getD 0) =
            l.map fun role =>
              ((rest.find? fun c => c.head.role == some role).map (weight w)).getD 0 :=
          fun l hl => List.map_congr_left fun other h => by rw [hother other (hl h)]
        rw [List.map_append, List.map_cons, hmap before (List.subset_append_left _ _),
          hmap behind (List.subset_append_right _ _), hself]
        rw [List.map_append, List.map_cons] at ih
        simp only [List.sum_append, List.sum_cons, Option.map_some, Option.getD_some] at ih ⊢
        omega
      · have hother : ∀ role ∈ roles, (t :: rest).find? (fun c => c.head.role == some role) =
            rest.find? fun c => c.head.role == some role := by
          intro role hrole
          refine List.find?_cons_of_neg fun heq => hmem ⟨role, hrole, ?_⟩
          exact eq_of_beq heq
        rw [List.map_congr_left fun role hrole => by rw [hother role hrole]]
        exact ih.trans (Nat.le_add_left _ _)

/-- What a tree gains and loses where one of its parts gives way to others. -/
theorem Rewrites.weight_eq (h : Rewrites old news t t') :
    weight w t' + weight w old = weight w t + weightList w news := by
  induction h with
  | here => simp; omega
  | inside _ ih => simp; omega

end Tree

namespace Store

variable {s : Store} {w : Head → Nat} {id : NodeId}

/-- A tree in a store weighs as much as the nodes at its top and below. -/
theorem weight_view (w : Head → Nat) (id : NodeId) :
    (s.view id).weight w = ((s.descendants id).map fun x => w (s.head x)).sum := by
  have hfrom : ∀ depth id, (s.viewFrom depth id).weight w =
      ((s.preorderFrom (fun _ => true) depth id).map fun x => w (s.head x)).sum := by
    intro depth
    induction depth with
    | zero => intro id; simp [viewFrom, preorderFrom]
    | succ depth ih =>
        intro id
        rw [viewFrom, preorderFrom, if_pos rfl, Tree.weight_node, List.map_cons, List.sum_cons,
          Tree.weightList_eq_sum, List.map_map, List.flatMap_def, List.map_flatten, List.sum_flatten,
          List.map_map, List.map_map]
        exact congrArg _ (congrArg List.sum (List.map_congr_left fun c _ => ih c))
  exact hfrom s.size id

end Store

end ScriptMin
