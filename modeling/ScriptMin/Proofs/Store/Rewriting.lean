import ScriptMin.Proofs.Store.Views

/-!
Nodes that give way to others. Where other nodes are put in the place of one, and nothing changes
outside of it, the tree above is the one before with one part of it rewritten.
-/

namespace ScriptMin

/-- One occurrence of a tree in another one gives way to several trees. -/
inductive Tree.Rewrites (old : Tree) (news : List Tree) : Tree → Tree → Prop where
  | here {head : Head} {before behind : List Tree} :
      Rewrites old news (.node head (before ++ old :: behind))
        (.node head (before ++ news ++ behind))
  | inside {head : Head} {before behind : List Tree} {t t' : Tree} (h : Rewrites old news t t') :
      Rewrites old news (.node head (before ++ t :: behind)) (.node head (before ++ t' :: behind))

namespace Store

variable {s s' : Store} {id parent x y a b : NodeId} {news : List NodeId}

/-- What is below a node is not below a sibling. -/
theorem Forest.not_within_of_sibling (h : s.Forest) (ha : s.parent? a = some parent)
    (hb : s.parent? b = some parent) (hne : a ≠ b) (hx : s.Within x a) : ¬ s.Within x b := by
  intro hx'
  rcases hx.total hx' with hab | hba
  · exact h.not_within_sibling ha hb hne hab
  · exact h.not_within_sibling hb ha hne.symm hba

/-- A node is not below its children. -/
theorem Forest.ne_of_within (h : s.Forest) (hb : b ∈ s.children id) (hx : s.Within x b) :
    x ≠ id := by
  rintro rfl
  exact h.not_within_child hb hx

/-- Nodes are put in the place of another one. Outside of that one nothing changes. -/
structure Puts (s s' : Store) (id : NodeId) (news : List NodeId) : Prop where
  forest : s'.Forest
  root_eq : s'.root = s.root
  head_eq : ∀ x < s.size, ¬ s.Within x id → s'.head x = s.head x
  children_eq : ∀ x < s.size, ¬ s.Within x id → s.parent? id ≠ some x →
    s'.children x = s.children x
  place : ∀ parent before behind, s.children parent = before ++ id :: behind →
    s'.children parent = before ++ news ++ behind

namespace Puts

/-- What is beside the line of the node stays. -/
theorem view_eq (h : Puts s s' id news) (hs : s.Forest) (hlt : y < s.size)
    (hid : ¬ s.Within id y) (hy : ¬ s.Within y id) : s'.view y = s.view y := by
  have houtside : ∀ x, s.Within x y → x < s.size ∧ ¬ s.Within x id := by
    intro x hx
    refine ⟨?_, fun hxid => ?_⟩
    · rcases hx.cases with rfl | ⟨p, hp, -⟩
      · exact hlt
      · exact parent?_lt hp
    · rcases hx.total hxid with hyid | hidy
      · exact hy hyid
      · exact hid hidy
  refine h.forest.view_eq ((hs.shows_view y).congr hs.toLinked h.forest ?_ ?_)
  · exact fun x hx => h.head_eq x (houtside x hx).1 (houtside x hx).2
  · refine fun x hx => h.children_eq x (houtside x hx).1 (houtside x hx).2 fun hparent => ?_
    exact hid ((within_of_parent hparent).trans hx)

/-- The trees above the node are rewritten. -/
theorem rewrites (h : Puts s s' id news) (hs : s.Forest) (ha : s.Within id a) (hne : id ≠ a) :
    Tree.Rewrites (s.view id) (news.map s'.view) (s.view a) (s'.view a) := by
  induction ha with
  | refl => exact absurd rfl hne
  | @tail child a hchild hparent ih =>
      have hmem := (hs.linked a child).mpr hparent
      have hout : ¬ s.Within a id := fun hback => hs.acyclic child a hparent (hback.trans hchild)
      have hlt := hs.parent_lt hparent
      obtain ⟨before, behind, hsplit⟩ := List.append_of_mem hmem
      have hnodup : (before ++ child :: behind).Nodup := hsplit ▸ hs.nodup a
      -- The other children of the node above are not on the line.
      have hother : ∀ c ∈ s.children a, c ≠ child → s'.view c = s.view c := by
        intro c hc hc'
        have hlink := hs.parent?_of_mem hc
        refine h.view_eq hs (parent?_lt hlink) ?_ ?_
        · exact hs.not_within_of_sibling hparent hlink hc'.symm hchild
        · intro hback
          exact hs.not_within_sibling hlink hparent hc' (hback.trans hchild)
      have hbefore : before.map s'.view = before.map s.view := by
        refine List.map_congr_left fun c hc => hother c ?_ ?_
        · rw [hsplit]
          exact List.mem_append_left _ hc
        · rintro rfl
          exact List.disjoint_of_nodup_append hnodup hc List.mem_cons_self
      have hbehind : behind.map s'.view = behind.map s.view := by
        refine List.map_congr_left fun c hc => hother c ?_ ?_
        · rw [hsplit]
          exact List.mem_append_right _ (List.mem_cons_of_mem _ hc)
        · rintro rfl
          exact (List.nodup_cons.mp (List.nodup_append.mp hnodup).2.1).1 hc
      rw [hs.view_eq_node a, h.forest.view_eq_node a, h.head_eq a hlt hout, hsplit]
      by_cases heq : id = child
      · subst heq
        rw [h.place a before behind hsplit]
        simp only [List.map_append, List.map_cons, hbefore, hbehind]
        exact .here
      · have hchildren : s'.children a = before ++ child :: behind := by
          rw [h.children_eq a hlt hout, hsplit]
          intro hid
          rcases Within.cases hchild with hcase | ⟨p, hp, hback⟩
          · exact heq hcase
          · rw [hid, Option.some_inj] at hp
            exact hs.acyclic child a hparent (hp ▸ hback)
        rw [hchildren]
        simp only [List.map_append, List.map_cons, hbefore, hbehind]
        exact .inside (ih heq)

end Puts

end Store

end ScriptMin
