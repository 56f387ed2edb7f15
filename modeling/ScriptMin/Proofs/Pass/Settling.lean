import ScriptMin.Proofs.Pass.Agreement
import ScriptMin.Proofs.Pass.Evaluation
import ScriptMin.Proofs.Pass.Shifting

/-!
Block reduction settles. As every round that reports a change lowers the burden of the tree, some
round reports none. Then no reduction of any node has anything to do, and as what reductions report
depends on the tree only, this stays so in all rounds to come.
-/

namespace ScriptMin

open Store Edit

variable {s s' s₁ : Store} {id : NodeId} {items : List NodeId}

/-- New nodes are not below old ones. -/
theorem Store.Grows.reached_iff (h : Grows s s') (hs : s.Linked) (hs' : s'.Linked) {x y : NodeId}
    (hy : y < s.size) : s'.Within x y ↔ s.Within x y := by
  refine ⟨fun hx => ?_, fun hx => ?_⟩
  · have hlt : x < s.size := by
      induction hx using Relation.ReflTransGen.head_induction_on with
      | refl => exact hy
      | head hp _ ih =>
          have hmem := (hs'.linked _ _).mpr hp
          rw [h.children_eq ih] at hmem
          exact hs.child_lt hmem
    exact (h.within_iff hs hlt).mp hx
  · have hlt : x < s.size := by
      rcases hx.cases with rfl | ⟨p, hp, -⟩
      · exact hy
      · exact parent?_lt hp
    exact (h.within_iff hs hlt).mpr hx

namespace Blocks

/-- A round over some nodes reports no change if no reduction of one of them does. -/
theorem sweep_reduceNode_iff (hs : s.Sound) (h : s.Forest)
    (hitems : ∀ x ∈ items, s.Within x s.root) (hgrows : Grows s s₁) (hs₁ : s₁.Sound)
    (h₁ : s₁.Forest) : ((sweep reduceNode items).run s₁).1 = false ↔
      ∀ x ∈ items, ((reduceNode x).run s).1 = false := by
  induction items generalizing s₁ with
  | nil => exact iff_of_true rfl (by simp)
  | cons x rest ih =>
      rw [List.forall_mem_cons] at hitems ⊢
      have hlt := h.lt_of_reached hitems.1
      have hagrees : ((reduceNode x).run s₁).1 = ((reduceNode x).run s).1 := by
        refine agrees_reduceNode hgrows h h₁ hlt fun hkind => exists_parent hitems.1 ?_
        rintro rfl
        rw [hs.root_kind] at hkind
        cases hkind
      have hreached : s₁.Within x s₁.root := by
        rw [hgrows.root_eq, hgrows.within_iff h.toLinked hlt]
        exact hitems.1
      have hlightens : Store.Lightens s₁ x _ _ := lightens_reduceNode hs₁ h₁ hreached
      have hkeeps : Store.Evolves s₁ ((reduceNode x).run s₁).2 := keeps_reduceNode hs₁
      change (((reduceNode x).run s₁).1 ||
        ((sweep reduceNode rest).run ((reduceNode x).run s₁).2).1) = false ↔ _
      rw [Bool.or_eq_false_iff, hagrees]
      refine and_congr_right fun hfalse => ih hitems.2 ?_ hkeeps.sound hlightens.forest
      exact hgrows.trans (hlightens.grows (hagrees.trans hfalse))

end Blocks

/-- A round reports no change if no reduction of a node of the tree does. -/
theorem reduceBlocks_eq_false_iff (hs : s.Sound) (h : s.Forest) :
    (reduceBlocks.run s).1 = false ↔
      ∀ x, s.Within x s.root → ((Blocks.reduceNode x).run s).1 = false := by
  have hreached : ∀ x ∈ s.postorder s.root, s.Within x s.root := fun x => h.mem_postorder.mp
  have hiff := Blocks.sweep_reduceNode_iff hs h hreached (.refl s) hs h
  refine hiff.trans (forall_congr' fun x => ?_)
  rw [h.mem_postorder]

/-- After a round that reports no change the next one reports none either. -/
theorem reduceBlocks_eq_false_of_grows (hs : s.Sound) (h : s.Forest) (hgrows : Grows s s')
    (hs' : s'.Sound) (h' : s'.Forest) (hround : (reduceBlocks.run s).1 = false) :
    (reduceBlocks.run s').1 = false := by
  rw [reduceBlocks_eq_false_iff hs h] at hround
  rw [reduceBlocks_eq_false_iff hs' h']
  intro x hx
  rw [hgrows.root_eq, hgrows.reached_iff h.toLinked h'.toLinked h.root_lt] at hx
  refine (Blocks.agrees_reduceNode hgrows h h' (h.lt_of_reached hx) fun hkind =>
    exists_parent hx ?_).trans (hround x hx)
  rintro rfl
  rw [hs.root_kind] at hkind
  cases hkind

def roundsOf (s : Store) (n : Nat) : Store := (fun s => (reduceBlocks.run s).2)^[n] s

theorem roundsOf_succ (s : Store) (n : Nat) :
    roundsOf s (n + 1) = (reduceBlocks.run (roundsOf s n)).2 := Function.iterate_succ_apply' _ _ _

theorem sound_roundsOf (hs : s.Sound) (h : s.Forest) (n : Nat) :
    (roundsOf s n).Sound ∧ (roundsOf s n).Forest := by
  induction n with
  | zero => exact ⟨hs, h⟩
  | succ n ih =>
      rw [roundsOf_succ]
      exact ⟨Store.Evolves.sound (keeps_reduceBlocks ih.1), keepsForest_reduceBlocks ih.2⟩

/-- While rounds report changes the burden of the tree is lowered. -/
theorem exists_round_eq_false (hs : s.Sound) (h : s.Forest) :
    ∃ n ≤ s.burden, (reduceBlocks.run (roundsOf s n)).1 = false := by
  by_contra hnone
  push Not at hnone
  have hlower : ∀ n ≤ s.burden + 1, (roundsOf s n).burden + n ≤ s.burden := by
    intro n
    induction n with
    | zero => exact fun _ => Nat.le_refl _
    | succ n ih =>
        intro hle
        obtain ⟨hsn, hn⟩ := sound_roundsOf hs h n
        have hlightens : Store.Lightens (roundsOf s n) _ _ _ := lightens_reduceBlocks hsn hn
        have hlt := hlightens.lighter (Bool.eq_true_of_not_eq_false (hnone n (by omega)))
        have hbound := ih (by omega)
        rw [roundsOf_succ]
        omega
  have hover := hlower (s.burden + 1) (Nat.le_refl _)
  omega

/-- After a round that reports no change the tree stays as it is in all rounds to come. -/
theorem rounds_stay (hs : s.Sound) (h : s.Forest) {n m : Nat} (hle : n ≤ m)
    (hround : (reduceBlocks.run (roundsOf s n)).1 = false) :
    (reduceBlocks.run (roundsOf s m)).1 = false ∧ Grows (roundsOf s n) (roundsOf s m) := by
  induction m, hle using Nat.le_induction with
  | base => exact ⟨hround, .refl _⟩
  | succ m _ ih =>
      obtain ⟨hsm, hm⟩ := sound_roundsOf hs h m
      obtain ⟨hsn, hn⟩ := sound_roundsOf hs h (m + 1)
      have hlightens : Store.Lightens (roundsOf s m) _ _ _ := lightens_reduceBlocks hsm hm
      have hgrows := hlightens.grows ih.1
      rw [roundsOf_succ] at hsn hn ⊢
      exact ⟨reduceBlocks_eq_false_of_grows hsm hm hgrows hsn hn ih.1, ih.2.trans hgrows⟩

/-- Block reduction settles. Whatever passes have run on a script, among the rounds that follow one
after the other there is one that reports no change, and from then on no round reports one, and the
tree stays as it is. -/
theorem reduceBlocks_settles {source : String} {line : Nat} {t : Tree}
    (hparse : parseScript source line = .ok t) (transforms : List Transform) :
    let after := roundsOf (transforms.foldl Transform.run (.ofTree t))
    (∃ n, (reduceBlocks.run (after n)).1 = false) ∧
      ∀ n, (reduceBlocks.run (after n)).1 = false → ∀ m ≥ n,
        (reduceBlocks.run (after m)).1 = false ∧
          (after m).view (after m).root = (after n).view (after n).root := by
  intro after
  have hs := sound_of_parseScript hparse transforms
  have h := Transform.forest_foldl_run (forest_ofTree t) transforms
  refine ⟨?_, fun n hround m hle => ?_⟩
  · obtain ⟨n, -, hround⟩ := exists_round_eq_false hs h
    exact ⟨n, hround⟩
  · obtain ⟨hstays, hgrows⟩ := rounds_stay hs h hle hround
    have hn := (sound_roundsOf hs h n).2
    refine ⟨hstays, ?_⟩
    change (roundsOf _ m).view (roundsOf _ m).root = (roundsOf _ n).view (roundsOf _ n).root
    rw [hgrows.root_eq, hgrows.view_eq hn (sound_roundsOf hs h m).2 hn.root_lt]

/-- An `if` in a block, with blocks and parentheses that are not needed. -/
def nestedIf : String := "{if(a){b();c()}else{(d())}}"

theorem reduceBlocks_settles_nestedIf :
    ∃ t, parseScript nestedIf 1 = .ok t ∧
      let after := roundsOf (.ofTree t)
      (reduceBlocks.run (after 0)).1 = true ∧
      (∃ n, (reduceBlocks.run (after n)).1 = false) ∧
      ∀ n, (reduceBlocks.run (after n)).1 = false → ∀ m ≥ n,
        (reduceBlocks.run (after m)).1 = false ∧
          (after m).view (after m).root = (after n).view (after n).root := by
  have hparse : parseScript nestedIf 1 = .ok (treeOf nestedIf) :=
    parseScript_treeOf (by decide +kernel)
  exact ⟨_, hparse, by decide +kernel, reduceBlocks_settles hparse []⟩

end ScriptMin
