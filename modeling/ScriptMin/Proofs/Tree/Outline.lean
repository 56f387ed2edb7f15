import ScriptMin.Pass.Statement
import ScriptMin.Proofs.Store.Views
import ScriptMin.Proofs.Tree.Jumps

/-!
Outlines of expressions. The outline of an expression says what it computes with, down to nested
functions and other nodes that are no operations, and leaves out where it stands: its role and its
parentheses. Main statement: an expression keeps its outline where the operations in it keep their
operands.
-/

namespace ScriptMin

/-- A head without what depends on where the node stands. -/
def Head.bare (h : Head) : Head :=
  { h with role := none, flags := { h.flags with parenthesized := false } }

namespace Tree

mutual
/-- An expression without where it stands, down to what is no operation. -/
def outline : Tree → Tree
  | .node head children =>
    if head.kind.isOperation then .node head.bare (outlineList children)
    else .node { kind := head.kind, span := head.span } []

def outlineList : List Tree → List Tree
  | [] => []
  | t :: rest => outline t :: outlineList rest
end

variable {t : Tree}

theorem outlineList_eq_map (ts : List Tree) : outlineList ts = ts.map outline := by
  induction ts with
  | nil => rfl
  | cons t rest ih => rw [outlineList, ih, List.map_cons]

mutual
/-- Whether an expression can have an effect shows in its outline. -/
theorem isEffectFree_outline : ∀ t : Tree, t.outline.isEffectFree = t.isEffectFree
  | .node head children => by
      rw [outline]
      by_cases harray : head.kind = .arrayInit
      · have hbelow := areEffectFree_outlineList children
        rw [if_pos (by rw [harray]; rfl)]
        simpa only [isEffectFree, Head.bare, harray] using hbelow
      · split
        · simp only [isEffectFree, Head.bare]
          split <;> first | rfl | exact absurd ‹_› harray
        · simp only [isEffectFree]
          split <;> first | rfl | exact absurd ‹_› harray

theorem areEffectFree_outlineList : ∀ ts : List Tree,
    areEffectFree (outlineList ts) = areEffectFree ts
  | [] => rfl
  | t :: rest => by
      rw [outlineList, areEffectFree, areEffectFree, isEffectFree_outline t,
        areEffectFree_outlineList rest]
end

end Tree

namespace Store

variable {s s' : Store} {x : NodeId}

theorem Forest.outline_view (h : s.Forest) (x : NodeId) : (s.view x).outline =
    if (s.kind x).isOperation then
      .node (s.head x).bare ((s.children x).map fun c => (s.view c).outline)
    else .node { kind := s.kind x, span := s.span x } [] := by
  rw [h.view_eq_node, Tree.outline, Tree.outlineList_eq_map, List.map_map]
  rfl

/-- A node is a part of a function: its parameters or its body. -/
def InFrame (s : Store) (x : NodeId) : Prop := ∃ F, s.parent? x = some F ∧ s.kind F = .function

theorem not_inFrame_of_mem {c : NodeId} (h : s.Linked) (hc : c ∈ s.children x)
    (hkind : s.kind x ≠ .function) : ¬ s.InFrame c := by
  rintro ⟨F, hF, hfunction⟩
  obtain rfl := Option.some_inj.mp ((h.parent?_of_mem hc).symm.trans hF)
  exact hkind hfunction

/-- An expression keeps its outline where the operations in it keep their operands. -/
theorem Forest.outline_view_eq (h : s.Forest) (h' : s'.Forest)
    (hkind : ∀ y < s.size, s'.kind y = s.kind y) (hspan : ∀ y < s.size, s'.span y = s.span y)
    (hhead : ∀ y < s.size, (s.kind y).isOperation → (s'.head y).bare = (s.head y).bare)
    (hrow : ∀ y < s.size, (s.kind y).isOperation → ¬ s.InFrame y → s'.children y = s.children y)
    (hlt : x < s.size) (hx : ¬ s.InFrame x) : (s'.view x).outline = (s.view x).outline := by
  induction x using h.descend with
  | step x ih =>
      rw [h.outline_view, h'.outline_view, hkind x hlt, hspan x hlt]
      by_cases hop : (s.kind x).isOperation
      · have hfunction : s.kind x ≠ .function := by
          intro hfunction
          rw [hfunction] at hop
          cases hop
        rw [if_pos hop, if_pos hop, hhead x hlt hop, hrow x hlt hop hx]
        congr 1
        refine List.map_congr_left fun c hc => ih c hc (h.child_lt hc) ?_
        exact not_inFrame_of_mem h.toLinked hc hfunction
      · rw [if_neg hop, if_neg hop]

end Store

end ScriptMin
