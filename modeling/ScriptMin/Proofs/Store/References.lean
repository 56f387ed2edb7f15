import Mathlib.Data.Set.Card
import ScriptMin.Proofs.Store.Meetings

/-!
References that reach a body. A node reaches a body if it is in it or below, and no function on the
way stops it. What a scan gives a body as its scope is told by the variables, member chains and
statements that reach it, however deep the functions are nested in which they stand.
-/

namespace ScriptMin.Store

variable {s : Store} {owner F G H c d x y : NodeId} {name p : String} {scope : Scope} {depth : Nat}
  {ids : List NodeId} {blocked P : NodeId → Prop}

/-! ### Reaching a body -/

/-- A node is below the owner of a body, and no function between them is blocked. -/
structure Reaches (s : Store) (blocked : NodeId → Prop) (F d : NodeId) : Prop where
  within : s.Within d F
  free : ∀ G, s.kind G = .function → s.Within d G → s.Within G F → G ≠ F → ¬ blocked G

/-- A node below another one is in its body, or below a function in it. -/
theorem Within.inside_or_nested (hs : s.Linked) (h : s.Within d F) (hne : d ≠ F) :
    s.Inside F d ∨ ∃ G, s.kind G = .function ∧ s.Inside F G ∧ s.Within d G := by
  induction h using Relation.ReflTransGen.head_induction_on with
  | refl => exact absurd rfl hne
  | @head d q hq _ ih =>
      have hmem := (hs.linked q d).mpr hq
      by_cases hqF : q = F
      · exact .inl (hqF ▸ .child hmem)
      rcases ih hqF with hinside | ⟨G, hG, hinside, hwithin⟩
      · by_cases hfunction : s.kind q = .function
        · exact .inr ⟨q, hfunction, hinside, within_of_parent hq⟩
        · exact .inl (.step hinside hfunction hmem)
      · exact .inr ⟨G, hG, hinside, (within_of_parent hq).trans hwithin⟩

/-- No function is between a body and a node inside it. -/
theorem Inside.eq_of_between (hs : s.Forest) (hd : s.Inside F d) (hG : s.kind G = .function)
    (hdG : s.Within d G) (hGF : s.Within G F) (hne : G ≠ F) : d = G := by
  induction hd with
  | child hc =>
      rcases hdG.cases with heq | ⟨q, hq, hwithin⟩
      · exact heq
      · obtain rfl := Option.some_inj.mp ((hs.parent?_of_mem hc).symm.trans hq)
        exact absurd (hs.eq_of_within hGF hwithin) hne
  | step _ hfunction hc ih =>
      rcases hdG.cases with heq | ⟨q, hq, hwithin⟩
      · exact heq
      · obtain rfl := Option.some_inj.mp ((hs.parent?_of_mem hc).symm.trans hq)
        exact absurd (ih hwithin ▸ hG) hfunction

theorem Inside.ne (hs : s.Forest) (h : s.Inside F d) : d ≠ F := by
  rintro rfl
  exact Nat.lt_irrefl _ (h.lineLength_lt hs)

/-- What reaches a body is in it, or it reaches that of a function in it. -/
theorem reaches_iff (hs : s.Forest) (hd : s.kind d ≠ .function) (hne : d ≠ F) :
    s.Reaches blocked F d ↔ s.Inside F d ∨
      ∃ G, s.kind G = .function ∧ s.Inside F G ∧ ¬ blocked G ∧ s.Reaches blocked G d := by
  constructor
  · rintro ⟨hwithin, hfree⟩
    rcases hwithin.inside_or_nested hs.toLinked hne with hinside | ⟨G, hG, hinside, hdG⟩
    · exact .inl hinside
    · have hGF := hinside.within hs.toLinked
      refine .inr ⟨G, hG, hinside, hfree G hG hdG hGF (hinside.ne hs), hdG, ?_⟩
      intro H hH hdH hHG hHne
      refine hfree H hH hdH (hHG.trans hGF) ?_
      rintro rfl
      exact hHne (hs.eq_of_within hHG hGF)
  · rintro (hinside | ⟨G, hG, hinside, hblocked, hdG, hfree⟩)
    · refine ⟨hinside.within hs.toLinked, fun G hG hdG hGF hGne => ?_⟩
      exact absurd (hinside.eq_of_between hs hG hdG hGF hGne ▸ hG) hd
    · refine ⟨hdG.trans (hinside.within hs.toLinked), fun H hH hdH hHF hHne => ?_⟩
      by_cases heq : H = G
      · exact heq ▸ hblocked
      rcases hdH.total hdG with hHG | hGH
      · exact hfree H hH hdH hHG heq
      · exact absurd (hinside.eq_of_between hs hH hGH hHF hHne).symm heq

/-- What a body takes from the nodes that its scan meets, and from the functions among them that are
not blocked, it takes from the nodes that reach it. -/
theorem iff_exists_reaches (hit blocked : NodeId → Prop) (hs : s.Forest) (h : s.Sound)
    (hstep : ∀ owner, s.OwnsBody owner → (P owner ↔ ∃ d, s.Meets owner d ∧
      (hit d ∨ s.kind d = .function ∧ ¬ blocked d ∧ P d)))
    (hmeets : ∀ owner d, s.OwnsBody owner → hit d → s.Inside owner d → s.Meets owner d)
    (hkind : ∀ d, hit d → ¬ s.OwnsBody d) (howner : s.OwnsBody owner) :
    P owner ↔ ∃ d, hit d ∧ s.Reaches blocked owner d := by
  induction hn : s.size - s.lineLength owner using Nat.strongRecOn generalizing owner with
  | _ n ih =>
      have hiff : ∀ G, s.kind G = .function → s.Inside owner G →
          (P G ↔ ∃ d, hit d ∧ s.Reaches blocked G d) := by
        intro G hG hinside
        have hlt := hinside.lineLength_lt hs
        have hle : s.lineLength G ≤ s.size := lineLength_le_size
        exact ih _ (by omega) (.inl hG) rfl
      have hcases : ∀ d, hit d → s.kind d ≠ .function ∧ d ≠ owner := by
        intro d hd
        refine ⟨fun hfunction => hkind d hd (.inl hfunction), ?_⟩
        rintro rfl
        exact hkind d hd howner
      rw [hstep owner howner]
      constructor
      · rintro ⟨d, hd, hhit | ⟨hfunction, hblocked, hP⟩⟩
        · obtain ⟨hfunction, hne⟩ := hcases d hhit
          exact ⟨d, hhit, (reaches_iff hs hfunction hne).mpr (.inl (hd.inside h howner))⟩
        · have hinside := hd.inside h howner
          obtain ⟨e, hhit, hreaches⟩ := (hiff d hfunction hinside).mp hP
          obtain ⟨hkind', hne⟩ := hcases e hhit
          exact ⟨e, hhit, (reaches_iff hs hkind' hne).mpr
            (.inr ⟨d, hfunction, hinside, hblocked, hreaches⟩)⟩
      · rintro ⟨d, hhit, hreaches⟩
        obtain ⟨hfunction, hne⟩ := hcases d hhit
        rcases (reaches_iff hs hfunction hne).mp hreaches with hinside |
          ⟨G, hG, hinside, hblocked, hreaches⟩
        · exact ⟨d, hmeets owner d howner hhit hinside, .inl hhit⟩
        · refine ⟨G, hinside.meets h howner (by rw [hG]; rfl), .inr ⟨hG, hblocked, ?_⟩⟩
          exact (hiff G hG hinside).mpr ⟨d, hhit, hreaches⟩

/-! ### References -/

/-- A name is local to a body. -/
def BindsName (s : Store) (owner : NodeId) (name : String) : Prop :=
  ∃ d, s.Declares owner d ∧ s.text d = name

/-- A variable refers to a name as a body knows it: no nested function on the way binds the name. -/
structure Refers (s : Store) (owner : NodeId) (name : String) (x : NodeId) : Prop where
  isVariable : s.IsVariable x
  text_eq : s.text x = name
  reaches : s.Reaches (fun G => s.BindsName G name) owner x

/-- The references at a node that a scan meets: the node itself, or what a function lets through. -/
def referencesAt (s : Store) (name : String) (below : NodeId → List NodeId) (d : NodeId) :
    List NodeId :=
  match s.kind d with
  | .identifier => if name = s.text d then [d] else []
  | .function => if (s.view d).scope.isLocal name then [] else below d
  | _ => []

/-- The variables that refer to a name as a body knows it, in order. -/
def references (s : Store) (name : String) : Nat → NodeId → List NodeId
  | 0, _ => []
  | depth + 1, owner => (s.met owner).flatMap (s.referencesAt name (references s name depth))

theorem mem_referencesAt {below : NodeId → List NodeId} : x ∈ s.referencesAt name below d ↔
    d = x ∧ s.kind x = .identifier ∧ s.text x = name ∨
      s.kind d = .function ∧ ¬ (s.view d).scope.isLocal name ∧ x ∈ below d := by
  rw [referencesAt]
  split
  case h_1 hkind =>
      simp only [hkind, reduceCtorEq, false_and, or_false]
      split
      case isTrue heq =>
          rw [List.mem_singleton, eq_comm]
          refine ⟨?_, And.left⟩
          rintro rfl
          exact ⟨rfl, hkind, heq.symm⟩
      case isFalse hne =>
          refine iff_of_false List.not_mem_nil ?_
          rintro ⟨rfl, -, rfl⟩
          exact hne rfl
  case h_2 hkind =>
      have hne : ¬ (d = x ∧ s.kind x = .identifier ∧ s.text x = name) := by
        rintro ⟨rfl, hbad, -⟩
        rw [hkind] at hbad
        cases hbad
      rw [or_iff_right hne, and_iff_right hkind]
      split <;> simp [*]
  case h_3 hname hfunction =>
      refine iff_of_false List.not_mem_nil ?_
      rintro (⟨rfl, hbad, -⟩ | ⟨hbad, -⟩)
      · exact hname hbad
      · exact hfunction hbad

section

variable (hs : s.Forest) (h : s.Sound)

include hs h

theorem met_eq_nil (howner : s.OwnsBody owner) (hline : s.size ≤ s.lineLength owner) :
    s.met owner = [] := by
  refine List.eq_nil_iff_forall_not_mem.mpr fun d hd => ?_
  have hlt := ((mem_met hs).mp hd |>.inside h howner).lineLength_lt hs
  have hle : s.lineLength d ≤ s.size := lineLength_le_size
  omega

theorem refers_iff (howner : s.OwnsBody owner) : s.Refers owner name x ↔
    ∃ d, s.Meets owner d ∧ (d = x ∧ s.kind x = .identifier ∧ s.text x = name ∨
      s.kind d = .function ∧ ¬ s.BindsName d name ∧ s.Refers d name x) := by
  have hne : s.kind x = .identifier → x ≠ owner := by
    rintro hkind rfl
    rcases howner with howner | howner <;> rw [howner] at hkind <;> cases hkind
  constructor
  · rintro ⟨hvariable, htext, hreaches⟩
    have hkind := hvariable.kind_eq
    rcases (reaches_iff hs (by simp [hkind]) (hne hkind)).mp hreaches with hinside |
      ⟨G, hG, hinside, hfree, hreaches⟩
    · exact ⟨x, hvariable.meets h howner hinside, .inl ⟨rfl, hkind, htext⟩⟩
    · exact ⟨G, hinside.meets h howner (by rw [hG]; rfl), .inr ⟨hG, hfree, hvariable, htext, hreaches⟩⟩
  · rintro ⟨d, hd, ⟨rfl, hkind, htext⟩ | ⟨hG, hfree, hvariable, htext, hreaches⟩⟩
    · refine ⟨hd.isVariable h howner hkind, htext, ?_⟩
      exact (reaches_iff hs (by simp [hkind]) (hne hkind)).mpr (.inl (hd.inside h howner))
    · refine ⟨hvariable, htext, ?_⟩
      have hkind := hvariable.kind_eq
      exact (reaches_iff hs (by simp [hkind]) (hne hkind)).mpr
        (.inr ⟨d, hG, hd.inside h howner, hfree, hreaches⟩)

theorem mem_references (howner : s.OwnsBody owner) (hdepth : s.size ≤ s.lineLength owner + depth) :
    x ∈ s.references name depth owner ↔ s.Refers owner name x := by
  induction depth generalizing owner with
  | zero =>
      refine iff_of_false List.not_mem_nil fun hx => ?_
      obtain ⟨d, hd, -⟩ := (refers_iff hs h howner).mp hx
      have hmem := (mem_met hs).mpr hd
      rw [met_eq_nil hs h howner hdepth] at hmem
      cases hmem
  | succ depth ih =>
      rw [references, List.mem_flatMap, refers_iff hs h howner]
      refine exists_congr fun d => ?_
      rw [mem_met hs, mem_referencesAt]
      refine and_congr_right fun hd => or_congr_right (and_congr_right fun hkind => ?_)
      have hlt := (hd.inside h howner).lineLength_lt hs
      rw [BindsName, ← isLocal_scope hs h (.inl hkind), ih (.inl hkind) (by omega)]

theorem nodup_references (howner : s.OwnsBody owner)
    (hdepth : s.size ≤ s.lineLength owner + depth) : (s.references name depth owner).Nodup := by
  induction depth generalizing owner with
  | zero => exact List.nodup_nil
  | succ depth ih =>
      have hmet : ∀ d ∈ s.met owner, s.Inside owner d := fun d hd =>
        ((mem_met hs).mp hd).inside h howner
      have hdeep : ∀ d ∈ s.met owner, s.size ≤ s.lineLength d + depth := by
        intro d hd
        have hlt := (hmet d hd).lineLength_lt hs
        omega
      have hbelow : ∀ d ∈ s.met owner, ∀ x ∈ s.referencesAt name (s.references name depth) d,
          s.Within x d ∧ (d = x ∨ s.kind d = .function) := by
        intro d hd x hx
        rcases mem_referencesAt.mp hx with ⟨rfl, -⟩ | ⟨hkind, -, hx⟩
        · exact ⟨.refl, .inl rfl⟩
        · exact ⟨((mem_references hs h (.inl hkind) (hdeep d hd)).mp hx).reaches.within, .inr hkind⟩
      have hsame : ∀ a ∈ s.met owner, ∀ b ∈ s.met owner, ∀ x,
          x ∈ s.referencesAt name (s.references name depth) a →
          x ∈ s.referencesAt name (s.references name depth) b → s.Within a b → a = b := by
        intro a ha b hb x hxa hxb hab
        rcases (hbelow b hb x hxb).2 with rfl | hkind
        · exact hs.eq_of_within hab (hbelow a ha _ hxa).1
        · have hinside := hmet b hb
          exact (hmet a ha).eq_of_between hs hkind hab (hinside.within hs.toLinked) (hinside.ne hs)
      refine List.nodup_flatMap.mpr ⟨fun d hd => ?_, (nodup_met hs h howner).imp_of_mem ?_⟩
      · rw [referencesAt]
        split
        case h_1 =>
            split
            · exact List.nodup_singleton _
            · exact List.nodup_nil
        case h_2 hkind =>
            split
            · exact List.nodup_nil
            · exact ih (.inl hkind) (hdeep d hd)
        case h_3 => exact List.nodup_nil
      · intro a b ha hb hne x hxa hxb
        rcases (hbelow a ha x hxa).1.total (hbelow b hb x hxb).1 with hab | hba
        · exact hne (hsame a ha b hb x hxa hxb hab)
        · exact hne (hsame b hb a ha x hxb hxa hba).symm

/-! ### Counts -/

omit hs h in
/-- What nodes record in turn raises the counts by what they use themselves. -/
theorem count_foldl (hids : ∀ x ∈ ids, s.kind x = .function → (s.view x).scope.shared.Ascending)
    (hscope : scope.accessed.Ascending) :
    (ids.foldl s.recordMet scope).accessed.Ascending ∧
      (ids.foldl s.recordMet scope).accesses name =
        scope.accesses name + (ids.map fun x => (s.view x).ownUses name).sum := by
  induction ids generalizing scope with
  | nil => exact ⟨hscope, rfl⟩
  | cons id rest ih =>
      rw [List.forall_mem_cons] at hids
      have hown : (s.recordMet scope id).accessed.Ascending ∧
          (s.recordMet scope id).accesses name =
            scope.accesses name + (s.view id).ownUses name :=
        Tree.count_recordOwn hscope (by rw [kind_view]; exact hids.1)
      obtain ⟨hascending, hcount⟩ := ih hids.2 hown.1
      refine ⟨hascending, hcount.trans ?_⟩
      rw [hown.2, List.map_cons, List.sum_cons, Nat.add_assoc]

theorem ascending_recorded (howner : s.OwnsBody owner) :
    (s.recorded owner).accessed.Ascending := by
  induction hn : s.size - s.lineLength owner using Nat.strongRecOn generalizing owner with
  | _ n ih =>
      rw [recorded_eq_foldl hs h howner]
      have hfold := @count_foldl s "" (s.startScope owner) (s.met owner)
      refine (hfold (fun d hd hkind => ?_) ?_).1
      · have hlt := (((mem_met hs).mp hd).inside h howner).lineLength_lt hs
        have hle : s.lineLength d ≤ s.size := lineLength_le_size
        rw [scope_view hs h (.inl hkind)]
        exact (ih _ (by omega) (.inl hkind) rfl).filter _
      · rw [accessed_startScope]
        exact List.Pairwise.nil

theorem ascending_shared (howner : s.OwnsBody owner) : (s.view owner).scope.shared.Ascending := by
  rw [scope_view hs h howner]
  exact (ascending_recorded hs h howner).filter _

theorem accesses_eq_sum (howner : s.OwnsBody owner) : (s.view owner).scope.accesses name =
    ((s.met owner).map fun x => (s.view x).ownUses name).sum := by
  have hfold := @count_foldl s name (s.startScope owner) (s.met owner)
  have hcount := (hfold (fun d _ hkind => ascending_shared hs h (.inl hkind))
    (by rw [accessed_startScope]; exact List.Pairwise.nil)).2
  rw [← recorded_eq_foldl hs h howner, Scope.accesses, Scope.accesses, accessed_startScope] at hcount
  rw [scope_view hs h howner]
  exact hcount.trans (Nat.zero_add _)

/-- A body uses a name once for each reference. -/
theorem accesses_eq_length (howner : s.OwnsBody owner)
    (hdepth : s.size ≤ s.lineLength owner + depth) :
    (s.view owner).scope.accesses name = (s.references name depth owner).length := by
  induction depth generalizing owner with
  | zero =>
      rw [accesses_eq_sum hs h howner, met_eq_nil hs h howner hdepth]
      rfl
  | succ depth ih =>
      rw [accesses_eq_sum hs h howner, references, List.length_flatMap]
      refine congrArg List.sum (List.map_congr_left fun d hd => ?_)
      have hlt := (((mem_met hs).mp hd).inside h howner).lineLength_lt hs
      rw [Tree.ownUses, kind_view, head_view, show (s.head d).text = s.text d from rfl]
      split
      case h_1 hkind =>
          rw [referencesAt, hkind]
          dsimp only
          split <;> rfl
      case h_2 hkind =>
          rw [referencesAt, hkind, scope_view hs h (.inl hkind), Scope.count_shared_finish,
            Scope.isLocal_finish]
          dsimp only
          split
          · rfl
          · rw [← ih (.inl hkind) (by omega), scope_view hs h (.inl hkind)]
            rfl
      case h_3 hname hfunction =>
          rw [referencesAt]
          split
          · exact absurd ‹_› hname
          · exact absurd ‹_› hfunction
          · rfl

/-- A body uses a name as often as variables refer to it. -/
theorem encard_refers (howner : s.OwnsBody owner) :
    {x | s.Refers owner name x}.encard = (s.view owner).scope.accesses name := by
  have hdepth : s.size ≤ s.lineLength owner + s.size := Nat.le_add_left _ _
  have hset : {x | s.Refers owner name x} =
    ((s.references name s.size owner).toFinset : Set NodeId) := by
    ext x
    rw [Finset.mem_coe, List.mem_toFinset]
    exact (mem_references hs h howner hdepth).symm
  rw [hset, Set.encard_coe_eq_coe_finsetCard,
    List.toFinset_card_of_nodup (nodup_references hs h howner hdepth),
    accesses_eq_length hs h howner hdepth]

end

end ScriptMin.Store
