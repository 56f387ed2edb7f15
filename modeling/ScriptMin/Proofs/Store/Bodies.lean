import Mathlib.Data.List.Nodup
import ScriptMin.Proofs.Store.Rewriting
import ScriptMin.Proofs.Store.Scanning

/-!
The nodes of a body in order. The nodes of a body are those inside it, each of them once and
parents before children. Where an edit changes the children of one node, the bodies around it
change as that node does.
-/

namespace ScriptMin.Store

variable {s s' : Store} {id owner F G c d p x y : NodeId} {K : NodeId → Bool}

/-! ### Preorder -/

/-- A node and the nodes below it in the same body, parents before children. -/
def inner (s : Store) (id : NodeId) : List NodeId :=
  s.preorderFrom (fun id => s.kind id != .function) s.size id

theorem bodyNodes_eq (s : Store) (id : NodeId) :
    s.bodyNodes id = (s.children id).flatMap s.inner := rfl

namespace Forest

/-- Where no line goes on, nothing is below. -/
theorem children_eq_nil (h : s.Forest) (hline : s.size ≤ s.lineLength id) : s.children id = [] := by
  refine List.eq_nil_iff_forall_not_mem.mpr fun c hc => ?_
  have hlt := h.lineLength_lt (h.parent?_of_mem hc)
  have hle : s.lineLength c ≤ s.size := lineLength_le_size
  omega

/-- A search that goes as far as lines go finds all there is. -/
theorem preorderFrom_eq (h : s.Forest) {enter : NodeId → Bool} {fuel fuel' : Nat}
    (hfuel : s.size ≤ s.lineLength id + fuel) (hfuel' : s.size ≤ s.lineLength id + fuel') :
    s.preorderFrom enter fuel id = s.preorderFrom enter fuel' id := by
  have hend : ∀ {fuel id}, s.size ≤ s.lineLength id → s.preorderFrom enter fuel id = [id] := by
    intro fuel id hline
    cases fuel with
    | zero => rfl
    | succ fuel =>
        rw [preorderFrom, h.children_eq_nil hline]
        split <;> rfl
  induction fuel generalizing id fuel' with
  | zero => rw [hend hfuel, hend hfuel]
  | succ fuel ih =>
      cases fuel' with
      | zero => rw [hend hfuel', hend hfuel']
      | succ fuel' =>
          rw [preorderFrom, preorderFrom]
          have hbelow : (s.children id).flatMap (s.preorderFrom enter fuel) =
              (s.children id).flatMap (s.preorderFrom enter fuel') := by
            refine List.flatMap_congr fun c hc => ?_
            have hlt := h.lineLength_lt (h.parent?_of_mem hc)
            exact ih (by omega) (by omega)
          rw [hbelow]

theorem inner_eq (h : s.Forest) (id : NodeId) :
    s.inner id = id :: if s.kind id = .function then [] else s.bodyNodes id := by
  cases hsize : s.size with
  | zero =>
      have hnone : s.children id = [] := children_of_size_le (hsize ▸ Nat.zero_le id)
      rw [inner, hsize, preorderFrom, bodyNodes_eq, hnone]
      split <;> rfl
  | succ n =>
      have hbelow : (s.children id).flatMap
          (s.preorderFrom (fun id => s.kind id != .function) n) = s.bodyNodes id := by
        refine List.flatMap_congr fun c hc => ?_
        have hlt := h.lineLength_lt (h.parent?_of_mem hc)
        exact h.preorderFrom_eq (by omega) (by omega)
      rw [inner, hsize, preorderFrom, hbelow]
      by_cases hkind : s.kind id = .function <;> simp [hkind]

end Forest

/-! ### Members -/

theorem Inside.trans (h : s.Inside owner d) (hkind : s.kind d ≠ .function) (hx : s.Inside d x) :
    s.Inside owner x := by
  induction hx with
  | child hc => exact .step h hkind hc
  | step _ hfunction hc ih => exact .step ih hfunction hc

theorem Inside.within (hs : s.Linked) (h : s.Inside owner d) : s.Within d owner := by
  induction h with
  | child hc => exact within_of_parent (hs.parent?_of_mem hc)
  | step _ _ hc ih => exact (within_of_parent (hs.parent?_of_mem hc)).trans ih

/-- The way to a node inside a body starts at a child. -/
theorem inside_iff : s.Inside y x ↔
    ∃ c ∈ s.children y, x = c ∨ s.kind c ≠ .function ∧ s.Inside c x := by
  constructor
  · intro h
    induction h with
    | child hc => exact ⟨_, hc, .inl rfl⟩
    | step _ hkind hx ih =>
        obtain ⟨c, hc, rfl | ⟨hkindc, hinside⟩⟩ := ih
        · exact ⟨_, hc, .inr ⟨hkind, .child hx⟩⟩
        · exact ⟨c, hc, .inr ⟨hkindc, .step hinside hkind hx⟩⟩
  · rintro ⟨c, hc, rfl | ⟨hkind, hinside⟩⟩
    · exact .child hc
    · exact (Inside.child hc).trans hkind hinside

namespace Forest

variable (h : s.Forest)

include h

theorem mem_inner : x ∈ s.inner y ↔ x = y ∨ s.kind y ≠ .function ∧ s.Inside y x := by
  induction y using h.descend with
  | step y ih =>
      rw [h.inner_eq, List.mem_cons]
      refine or_congr_right ?_
      by_cases hkind : s.kind y = .function
      · simp [hkind]
      · rw [if_neg hkind, bodyNodes_eq, List.mem_flatMap, inside_iff]
        simp only [ne_eq, hkind, not_false_eq_true, true_and]
        exact exists_congr fun c => and_congr_right fun hc => ih c hc

/-- The nodes of a body are those inside it. -/
theorem mem_bodyNodes : x ∈ s.bodyNodes y ↔ s.Inside y x := by
  rw [bodyNodes_eq, List.mem_flatMap, inside_iff]
  exact exists_congr fun c => and_congr_right fun _ => h.mem_inner

theorem within_of_mem_inner (hx : x ∈ s.inner y) : s.Within x y := by
  rcases h.mem_inner.mp hx with rfl | ⟨-, hinside⟩
  · exact .refl
  · exact hinside.within h.toLinked

/-- Lists of nodes at the children of a node and below have no node twice. -/
theorem nodup_flatMap {ids : List NodeId} {f : NodeId → List NodeId} (hids : ids.Nodup)
    (hlink : ∀ c ∈ ids, s.parent? c = some p) (hnodup : ∀ c ∈ ids, (f c).Nodup)
    (hwithin : ∀ c ∈ ids, ∀ x ∈ f c, s.Within x c) : (ids.flatMap f).Nodup := by
  refine List.nodup_flatMap.mpr ⟨hnodup, hids.imp_of_mem fun {a b} ha hb hne => ?_⟩
  exact fun x hxa hxb => h.not_within_of_sibling (hlink a ha) (hlink b hb) hne
    (hwithin a ha x hxa) (hwithin b hb x hxb)

theorem nodup_inner (y : NodeId) : (s.inner y).Nodup := by
  induction y using h.descend with
  | step y ih =>
      rw [h.inner_eq, List.nodup_cons]
      split
      case isTrue => exact ⟨List.not_mem_nil, List.nodup_nil⟩
      case isFalse =>
        refine ⟨fun hself => ?_, h.nodup_flatMap (h.nodup y) (fun c hc => h.parent?_of_mem hc) ih
          fun c _ x hx => h.within_of_mem_inner hx⟩
        exact Nat.lt_irrefl _ ((h.mem_bodyNodes.mp hself).lineLength_lt h)

/-- A body has every node once. -/
theorem nodup_bodyNodes (y : NodeId) : (s.bodyNodes y).Nodup := by
  exact h.nodup_flatMap (h.nodup y) (fun c hc => h.parent?_of_mem hc) (fun c _ => h.nodup_inner c)
    fun c _ x hx => h.within_of_mem_inner hx

end Forest

/-! ### Owners -/

theorem Inside.parent (hs : s.Linked) (h : s.Inside y x) : ∃ p, s.parent? x = some p ∧
    (p = y ∨ s.kind p ≠ .function ∧ s.Inside y p) := by
  cases h with
  | child hc => exact ⟨y, hs.parent?_of_mem hc, .inl rfl⟩
  | step hinside hkind hc => exact ⟨_, hs.parent?_of_mem hc, .inr ⟨hkind, hinside⟩⟩

/-- The nearest function above a node inside something is that or is around it. -/
theorem Inside.around (hs : s.Linked) (hy : s.Inside y x) (hF : s.Inside F x)
    (hkind : s.kind F = .function) : F = y ∨ s.Inside F y := by
  induction hy with
  | child hc =>
      obtain ⟨p, hp, hF⟩ := hF.parent hs
      obtain rfl := Option.some_inj.mp ((hs.parent?_of_mem hc).symm.trans hp)
      exact hF.imp Eq.symm And.right
  | step _ hfunction hc ih =>
      obtain ⟨p, hp, hF⟩ := hF.parent hs
      obtain rfl := Option.some_inj.mp ((hs.parent?_of_mem hc).symm.trans hp)
      rcases hF with rfl | ⟨-, hF⟩
      · exact absurd hkind hfunction
      · exact ih hF

theorem not_inside_root (hs : s.Linked) : ¬ s.Inside y s.root := by
  intro h
  obtain ⟨p, hp, -⟩ := h.parent hs
  rw [hs.root_parent] at hp
  cases hp

/-- A node is inside one body only. -/
theorem Inside.owner_eq (hs : s.Forest) (hF : s.Owner F) (hG : s.Owner G) (hxF : s.Inside F x)
    (hxG : s.Inside G x) : F = G := by
  have hcases : ∀ {F G}, s.kind F = .function → s.Owner G → s.Inside F x → s.Inside G x →
      F = G ∨ s.Inside F G ∧ s.kind G = .function := by
    intro F G hF hG hxF hxG
    refine (hxG.around hs.toLinked hxF hF).imp_right fun hinside => ⟨hinside, ?_⟩
    rcases hG with rfl | hG
    · exact absurd hinside (not_inside_root hs.toLinked)
    · exact hG
  rcases hF with rfl | hkindF
  · rcases hG with rfl | hkindG
    · rfl
    · exact ((hcases hkindG (.inl rfl) hxG hxF).resolve_right fun h =>
        not_inside_root hs.toLinked h.1).symm
  · rcases hcases hkindF hG hxF hxG with heq | ⟨hFG, hkindG⟩
    · exact heq
    · rcases hcases hkindG (.inr hkindF) hxG hxF with heq | ⟨hGF, -⟩
      · exact heq.symm
      · exact absurd (hGF.lineLength_lt hs) (Nat.lt_asymm (hFG.lineLength_lt hs))

/-! ### Changes of one node -/

/-- What is below a node stays if the children there do. -/
theorem Forest.inner_congr (h : s.Forest) (h' : s'.Forest) (hkind : ∀ x, s.Within x y →
    s'.kind x = s.kind x) (hrow : ∀ x, s.Within x y → s'.children x = s.children x) :
    s'.inner y = s.inner y := by
  induction y using h.descend with
  | step y ih =>
      rw [h.inner_eq, h'.inner_eq, bodyNodes_eq, bodyNodes_eq, hkind y .refl, hrow y .refl]
      have hbelow : (s.children y).flatMap s'.inner = (s.children y).flatMap s.inner := by
        refine List.flatMap_congr fun c hc => ?_
        have hlink := within_of_parent (h.parent?_of_mem hc)
        exact ih c hc (fun x hx => hkind x (hx.trans hlink)) fun x hx => hrow x (hx.trans hlink)
      rw [hbelow]

/-- Where the children of one node change, and perhaps those of nodes below it, the bodies around
that node change as it does. -/
theorem Forest.filter_bodyNodes_eq (h : s.Forest) (h' : s'.Forest) {T : NodeId → Prop}
    (hkind : ∀ x < s.size, s'.kind x = s.kind x)
    (hrow : ∀ x < s.size, x ≠ p → ¬ T x → s'.children x = s.children x)
    (hbelow : ∀ x q, T x → s.parent? x = some q → q = p ∨ T q)
    (hplace : (s'.bodyNodes p).filter K = (s.bodyNodes p).filter K) (hlt : y < s.size)
    (hy : ¬ T y) : (s'.bodyNodes y).filter K = (s.bodyNodes y).filter K := by
  induction y using h.descend with
  | step y ih =>
      by_cases hp : y = p
      · rw [hp]
        exact hplace
      rw [bodyNodes_eq, bodyNodes_eq, hrow y hlt hp hy, List.filter_flatMap, List.filter_flatMap]
      refine List.flatMap_congr fun c hc => ?_
      have hparent := h.parent?_of_mem hc
      have hchild := ih c hc (h.child_lt hc) fun hT =>
        (hbelow c y hT hparent).elim hp hy
      rw [h.inner_eq, h'.inner_eq, hkind c (h.child_lt hc), List.filter_cons, List.filter_cons]
      split <;> split <;> simp [hchild]

/-- Nodes in the place of a child bring what the child brought. -/
theorem filter_bodyNodes_place {before behind : List NodeId} (news : List NodeId)
    (hsplit : s.children p = before ++ x :: behind)
    (hsplit' : s'.children p = before ++ news ++ behind)
    (hkept : ∀ c ∈ before ++ behind, s'.inner c = s.inner c)
    (hnews : (news.flatMap s'.inner).filter K = (s.inner x).filter K) :
    (s'.bodyNodes p).filter K = (s.bodyNodes p).filter K := by
  have hbefore : before.flatMap s'.inner = before.flatMap s.inner :=
    List.flatMap_congr fun c hc => hkept c (List.mem_append_left _ hc)
  have hbehind : behind.flatMap s'.inner = behind.flatMap s.inner :=
    List.flatMap_congr fun c hc => hkept c (List.mem_append_right _ hc)
  rw [bodyNodes_eq, bodyNodes_eq, hsplit, hsplit']
  simp only [List.flatMap_append, List.flatMap_cons, List.filter_append, hbefore, hbehind, hnews,
    List.append_assoc]

end ScriptMin.Store
