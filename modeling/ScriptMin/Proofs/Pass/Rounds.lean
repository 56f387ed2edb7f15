import ScriptMin.Proofs.Pass.Removals

/-!
Rounds of removal. Within a round, what the last scan has found unused stays the measure of what is
needed. Main statement: a round takes away at most what is not needed.
-/

namespace ScriptMin

open Store Edit

variable {α β : Type} {s s' : Store} {G l p d f c body : NodeId} {unused : NameSet} {name : String}

/-! ### Edits that thin a store -/

/-- An edit takes away at most what is not needed. -/
def Edit.Trims (m : Edit α) (s : Store) : Prop := Edit.Gives m s fun _ s' => Thins s s'

namespace Edit

theorem Trims.bind {m : Edit α} {f : α → Edit β} (h : Trims m s) (hs : s.Sound)
    (hf : ∀ a s', Thins s s' → Trims (f a) s') : Trims (m >>= f) s := by
  rw [Trims, gives_bind]
  exact Gives.mono h fun a s' hthins => (hf a s' hthins).mono fun _ _ hrest => hthins.trans hrest hs

theorem trims_pure (hs : s.Sound) (ho : s.Ordered) {a : α} : Trims (pure a : Edit α) s := .refl hs ho

theorem trims_sweep {edit : α → Edit Bool} {items : List α} (hs : s.Sound) (ho : s.Ordered)
    (hedit : ∀ item ∈ items, ∀ s', Thins s s' → Trims (edit item) s') :
    Trims (sweep edit items) s := by
  refine (gives_sweep (I := fun rest s' => rest ⊆ items ∧ Thins s s')
    ⟨List.Subset.refl _, .refl hs ho⟩ ?_).mono fun _ _ h => h.2
  rintro item rest s' ⟨hrest, hthins⟩
  obtain ⟨hitem, hrest⟩ := List.cons_subset.mp hrest
  exact (hedit item hitem s' hthins).mono fun _ _ h => ⟨hrest, hthins.trans h hs⟩

end Edit

/-! ### Where a body is -/

namespace Store

/-- A node below another one is in its body, or in that of a function on the way. -/
theorem Within.inside_or (hs : s.Linked) (h : s.Within c body) (hne : c ≠ body) :
    s.Inside body c ∨ ∃ F, s.kind F = .function ∧ s.Inside F c := by
  induction h using Relation.ReflTransGen.head_induction_on with
  | refl => exact absurd rfl hne
  | @head c q hq _ ih =>
      have hmem := (hs.linked q c).mpr hq
      by_cases hfunction : s.kind q = .function
      · exact .inr ⟨q, hfunction, .child hmem⟩
      by_cases hbody : q = body
      · exact .inl (hbody ▸ .child hmem)
      rcases ih hbody with hinside | ⟨F, hF, hinside⟩
      · exact .inl (.step hinside hfunction hmem)
      · exact .inr ⟨F, hF, .step hinside hfunction hmem⟩

theorem within_of_mem_ancestryFrom {fuel : Nat} (h : body ∈ s.ancestryFrom fuel c) :
    s.Within c body := by
  induction fuel generalizing c with
  | zero => rw [List.mem_singleton.mp h]; exact .refl
  | succ fuel ih =>
      rw [ancestryFrom, List.mem_cons] at h
      rcases h with rfl | h
      · exact .refl
      · split at h
        case h_1 q hq => exact (within_of_parent hq).trans (ih h)
        case h_2 => cases h

theorem within_of_isInside (h : s.isInside c body) : s.Within c body :=
  within_of_mem_ancestryFrom (List.contains_iff_mem.mp h)

/-- The statements of an owner: those of the script, or those in the body of a function. -/
inductive BodyOf (s : Store) (G : NodeId) : NodeId → Prop where
  | script (root : G = s.root) : BodyOf s G G
  | function {body : NodeId} (kind_eq : s.kind G = .function)
      (child : s.child? G .body = some body) : BodyOf s G body

namespace BodyOf

theorem owner (h : s.BodyOf G body) : s.Owner G := by
  cases h with
  | script hroot => exact .inl hroot
  | function hkind => exact .inr hkind

theorem kind_eq (h : s.BodyOf G body) (hs : s.Sound) : s.kind body = .script := by
  cases h with
  | script hroot => rw [hroot, hs.root_kind]
  | function hkind hchild => exact hs.kind_body hkind hchild

theorem inside (h : s.BodyOf G body) (hs : s.Sound) (hc : s.Inside body c) : s.Inside G c := by
  have hkind := h.kind_eq hs
  cases h with
  | script => exact hc
  | function _ hchild =>
      exact (Inside.child (mem_of_child? hchild)).trans (by simp [hkind]) hc

/-- The body of a function stays where it is. -/
theorem of_thins (h : s.BodyOf G body) (hs : s.Sound) (hthins : Thins s s') : s'.BodyOf G body := by
  have hscript := h.kind_eq hs
  cases h with
  | script hroot => exact .script (hroot.trans hthins.evolves.root_eq.symm)
  | function hkind hchild =>
      have hlt : G < s.size := lt_of_kind (by simp [hkind])
      refine .function ((hthins.kind_eq hlt).trans hkind) ?_
      refine hthins.child? hs.toLinked hlt (by rw [hkind]; rfl) hchild ?_
      refine ⟨by simp [hscript], by simp [hscript], by simp [hkind], by simp [hkind], ?_⟩
      intro F hF hparams
      rcases hs.hosts_function hF (mem_of_child? hparams) with ⟨-, hlist⟩ | ⟨-, hbody⟩
      · rw [hkind] at hlist; cases hlist
      · rw [hkind] at hbody; cases hbody

end BodyOf

/-- What is still below a body that it has been in is still in it. -/
theorem Thins.inside_of_isInside (h : Thins s s') (hs : s.Sound) (ho : s.Ordered)
    (hbody : s.BodyOf G body) (hc : s.Inside G c) (hkind : s.kind c ≠ .varList)
    (hne : c ≠ body) (hwithin : s'.Within c body) : s'.Inside G c := by
  rcases hwithin.inside_or h.evolves.sound.toLinked hne with hinside | ⟨F, hF, hinside⟩
  · exact (hbody.of_thins hs h).inside h.evolves.sound hinside
  · have hlt : F < s.size := h.not_new (by simp [hF]) (by simp [hF])
    have hFs : s.kind F = .function := (h.kind_eq hlt).symm.trans hF
    have hold := h.inside_of ho.toForest (.inl hFs) hlt (hc.lt hs.toLinked) hkind hinside
    rwa [hc.owner_eq ho.toForest hbody.owner (.inr hFs) hold]

theorem parent?_of_inStatementList (h : s.inStatementList l) :
    ∃ p, s.parent? l = some p ∧ (s.kind p).isStatementList := by
  rw [inStatementList, parentKind?] at h
  cases hp : s.parent? l with
  | none =>
      rw [hp] at h
      cases h
  | some p =>
      rw [hp] at h
      exact ⟨p, rfl, h⟩

theorem Ordered.scanTree (h : s.Ordered) : s.scanTree.Ordered := by
  obtain ⟨C, hC⟩ := h.arranged
  exact ⟨h.toForest.scan, hC.scan.rearranged.arranged⟩

/-- The names that a scan has found unused in a body that does not use `eval`. -/
def AllIdle (s : Store) (G : NodeId) (unused : NameSet) : Prop := ∀ name ∈ unused, s.Idle G name

theorem AllIdle.of_thins (h : s.AllIdle G unused) (hthins : Thins s s') : s'.AllIdle G unused :=
  fun name hname => hthins.idle_iff.mpr (h name hname)

/-- The text of a node is among certain names. -/
theorem text_mem_of_any (h : (s.text? d).any unused.contains) : s.text d ∈ unused := by
  rw [text, Head.text]
  rw [text?] at h
  cases htext : (s.head d).text? with
  | none =>
      rw [htext] at h
      cases h
  | some name =>
      rw [htext] at h
      exact List.contains_iff_mem.mp h

end Store

namespace Unused

/-! ### Lists of declarations -/

/-- What is left of a list when one of its declarations has been dealt with. -/
def Leaves (s s' : Store) (l p d : NodeId) (done rest : List NodeId) : Prop :=
  Thins s s' ∧ (s'.parent? l = some p ∧
    (s'.children l = done ++ d :: rest ∨ s'.children l = done ++ rest) ∨
      rest = [] ∧ s'.children l ≠ [])

/-- Where a declaration is in a list that is worked on. -/
structure Entry (s : Store) (G l p d : NodeId) (done rest : List NodeId) : Prop where
  owner : s.Owner G
  inside : s.Inside G l
  kind_eq : s.kind l = .varList
  link : s.parent? l = some p
  statements : (s.kind p).isStatementList
  children : s.children l = done ++ d :: rest

namespace Entry

variable {done rest : List NodeId} (h : Entry s G l p d done rest)

include h

theorem parent (hs : s.Linked) : s.parent? d = some l := by
  refine hs.parent?_of_mem ?_
  rw [h.children]
  exact List.mem_append_right _ List.mem_cons_self

theorem inside_declaration (hs : s.Linked) : s.Inside G d :=
  h.inside.step (by simp [h.kind_eq]) ((hs.linked l d).mpr (h.parent hs))

theorem kind_declaration (ho : s.Ordered) : s.kind d = .declaration :=
  (ho.admits (h.parent ho.toLinked)).declaration h.kind_eq

/-- A declaration without an effect is gone, and nothing else has changed. -/
theorem leaves_remove (hs : s.Sound) (ho : s.Ordered) (hplain : s.child? d .names = none)
    (hidle : s.Idle G (s.text d))
    (hfree : ∀ x, s.child? d .initializer = some x → (s.view x).isEffectFree) :
    Leaves s (s.remove d) l p d done rest := by
  have hlink := h.parent hs.toLinked
  have hld : l ≠ d := by
    rintro rfl
    exact ho.toForest.acyclic l l hlink .refl
  refine ⟨(removal_declaration hs ho h.owner (h.inside_declaration hs.toLinked)
    (h.kind_declaration ho) hlink h.kind_eq hplain hidle hfree).thins hs ho, .inl ⟨?_, .inr ?_⟩⟩
  · rw [parent?_remove, if_neg hld, h.link]
  · rw [hs.toLinked.children_remove, h.children]
    exact filter_ne_append (h.children ▸ hs.nodup l)

theorem leaves_refl (hs : s.Sound) (ho : s.Ordered) : Leaves s s l p d done rest :=
  ⟨.refl hs ho, .inl ⟨h.link, .inl h.children⟩⟩

/-- A declaration that gives way to its initializer leaves what is needed. -/
theorem thins_demotion {x lost : NodeId} {news : List NodeId} (hs : s.Sound) (ho : s.Ordered)
    (hplain : s.child? d .names = none) (hchild : s.child? d .initializer = some x)
    (heffect : (s.view x).isEffectFree = false) (hidle : s.Idle G (s.text d))
    (hdemotion : Demotion s s' x d l p lost news) (hevolves : s.Evolves s')
    (hordered : s'.Ordered) : Thins s s' :=
  (hdemotion.removal hs ho hevolves hordered h.owner (h.inside_declaration hs.toLinked)
    (h.kind_declaration ho) (h.parent hs.toLinked) h.kind_eq h.link h.statements hplain hchild heffect
    hidle).thins hs ho

/-- What is left of a list when one of its declarations has been dealt with, if the store is one
that passes leave. -/
theorem gives_leaves {count index : Nat} (hs : s.Sound) (ho : s.Ordered)
    (hidle : s.AllIdle G unused) (hindex : index < count) (hfirst : index = 0 → done = [])
    (hlast : count ≤ index + 1 → rest = []) :
    Gives (removeDeclaration unused l count (index, d)) s fun _ s' =>
      s.Evolves s' → s'.Ordered → Leaves s s' l p d done rest := by
  have hlink := h.parent hs.toLinked
  rw [removeDeclaration, gives_bind, gives_get]
  refine gives_ite (fun _ _ _ => h.leaves_refl hs ho) fun hcase => ?_
  simp only [Bool.not_eq_true', Bool.and_eq_true, Option.isNone_iff_eq_none,
    Bool.not_eq_false] at hcase
  obtain ⟨hunused, hplain⟩ := hcase
  have hidled := hidle _ (text_mem_of_any hunused)
  split
  case h_1 hnone =>
      refine fun _ _ => h.leaves_remove hs ho hplain hidled fun x hx => ?_
      rw [hnone] at hx
      cases hx
  case h_2 x hx =>
      refine gives_ite (fun hfree _ _ => ?_) fun heffect => ?_
      · refine h.leaves_remove hs ho hplain hidled fun y hy => ?_
        rw [← Option.some_inj.mp (hx.symm.trans hy)]
        exact hfree
      rw [Bool.not_eq_true] at heffect
      refine gives_ite (fun _ _ _ => h.leaves_refl hs ho) fun hposition => ?_
      have hlinkx := hs.parent?_of_mem (mem_of_child? hx)
      rw [gives_bind]
      refine ((gives_demote ho.toForest (ho.toForest.movable_child (mem_of_child? hx))).and
        (demoted_demote hs.toLinked (parent?_lt hlinkx))).mono ?_
      rintro w s₁ ⟨hbuilt, rfl, hd⟩
      have hs₁ := hbuilt.forest.toLinked
      refine gives_ite (fun hcount => ?_) fun hcount => ?_
      · obtain rfl := hfirst (by omega)
        obtain rfl := hlast (by omega)
        rw [gives_bind, gives_modify, gives_bind, gives_modify, gives_pure]
        intro hevolves hordered
        have hdemotion := demotion_instead ho.toForest hd hs₁ hlinkx hlink h.link h.children
        refine ⟨h.thins_demotion hs ho hplain hx heffect hidled hdemotion hevolves hordered,
          .inr ⟨rfl, fun hnil => ?_⟩⟩
        -- The declaration is still in the list.
        have hlinkd := hdemotion.parent d (parent?_lt hlink) ?_ ?_
        · have hmem := (hordered.linked l d).mpr (hlinkd.trans hlink)
          rw [hnil] at hmem
          cases hmem
        · rintro rfl
          exact ho.toForest.acyclic d d hlinkx .refl
        · rintro rfl
          exact ho.toForest.acyclic d d hlink .refl
      · obtain ⟨before, behind, hsplit⟩ := List.append_of_mem ((hs.linked p l).mpr h.link)
        have hinsert₁ : s₁.parent? l = some p := by
          rw [hd.parent, if_neg, h.link]
          rintro rfl
          exact ho.toForest.acyclic l d hlinkx (within_of_parent hlink)
        have hsplit₁ : s₁.children p = before ++ l :: behind := by
          rw [hd.children_of_ne hs.toLinked hlinkx (hs.parent_lt h.link), hsplit]
          rintro rfl
          exact ho.toForest.acyclic p l hlink (within_of_parent h.link)
        have hld : l ≠ d := by
          rintro rfl
          exact ho.toForest.acyclic l l hlink .refl
        have hlx : l ≠ x := by
          rintro rfl
          exact ho.toForest.acyclic l d hlinkx (within_of_parent hlink)
        have hl := parent?_lt h.link
        have hlength : (s.children p).length = before.length + behind.length + 1 := by
          rw [hsplit, List.length_append, List.length_cons, Nat.add_assoc]
        -- Either way the list keeps its place and its other declarations.
        have hleaves : ∀ {s' : Store} {news : List NodeId}, Demotion s s' x d l p d news →
            s'.children l = done ++ rest → s.Evolves s' → s'.Ordered →
            Leaves s s' l p d done rest := by
          intro s' news hdemotion hrow hevolves hordered
          refine ⟨h.thins_demotion hs ho hplain hx heffect hidled hdemotion hevolves hordered,
            .inl ⟨?_, .inr hrow⟩⟩
          rw [hdemotion.parent l hl hlx hld, h.link]
        dsimp only
        refine gives_ite (fun hzero => ?_) fun hzero => ?_
        all_goals
          rw [gives_bind, gives_modify, gives_bind, gives_modify, gives_bind, gives_modify, gives_pure]
        · obtain rfl := hfirst hzero
          rw [insertBefore_eq hs₁ hinsert₁ hsplit₁]
          obtain ⟨hdemotion, hrow⟩ := demotion_beside ho.toForest hd hs₁ hlinkx hlink h.link
            before.length [s.size, l] hsplit (by omega)
            (by rw [hsplit, insertIdx_length]; simp) h.children fun _ hrow => .before h.children hrow
          exact hleaves hdemotion hrow
        · obtain rfl := hlast (by omega)
          rw [insertAfter_eq hs₁ hinsert₁ hsplit₁]
          obtain ⟨hdemotion, hrow⟩ := demotion_beside ho.toForest hd hs₁ hlinkx hlink h.link
            (before.length + 1) [l, s.size] hsplit (by omega)
            (by rw [hsplit, insertIdx_behind]; simp) h.children
            fun _ hrow => .behind h.children (hrow.trans (List.append_nil done))
          exact hleaves hdemotion hrow

/-- What is left of a list when one of its declarations has been dealt with. -/
theorem leaves_removeDeclaration {count index : Nat} (hs : s.Sound) (ho : s.Ordered)
    (hidle : s.AllIdle G unused) (hindex : index < count) (hfirst : index = 0 → done = [])
    (hlast : count ≤ index + 1 → rest = []) :
    Gives (removeDeclaration unused l count (index, d)) s fun _ s' =>
      Leaves s s' l p d done rest := by
  obtain ⟨C, hC⟩ := ho.arranged
  have hmem := (hs.linked l d).mpr (h.parent hs.toLinked)
  have hl := parent?_lt h.link
  have hlisted : s.Listed l := fun q hq =>
    Option.some_inj.mp (h.link.symm.trans hq) ▸ h.statements
  have hevolves : Gives (removeDeclaration unused l count (index, d)) s fun _ s' =>
      s.Evolves s' ∧ s'.Unasked l :=
    evolves_removeDeclaration hs (fun q hq => not_isRigid_of_isStatementList (hlisted q hq)) h.kind_eq
      (hs.portable_of_mem hmem (by simp [h.kind_eq]))
  have hforest : Gives (removeDeclaration unused l count (index, d)) s fun _ s' =>
      s'.Forest ∧ l < s'.size ∧ ∀ d ∈ ([] : List NodeId), Movable {l} s' d :=
    gives_removeDeclaration ho.toForest hl (ho.toForest.movable_child hmem) nofun fun _ => rfl
  have hextends : Gives (removeDeclaration unused l count (index, d)) s fun _ s' =>
      (∃ C', Extends C s C' s') ∧ s'.Listed l :=
    extends_removeDeclaration hC ho.toForest hlisted h.kind_eq (ho.toForest.movable_child hmem)
      (h.kind_declaration ho) (hC.le_of_mem hs.toLinked (by rw [h.kind_eq]; rfl) hmem)
  refine (((h.gives_leaves hs ho hidle hindex hfirst hlast).and hevolves).and
    (hforest.and hextends)).mono ?_
  rintro _ s' ⟨⟨hleaves, hevolves, -⟩, ⟨hforest, -⟩, ⟨C', hextends⟩, -⟩
  exact hleaves hevolves ⟨hforest, hextends.rearranged.arranged⟩

end Entry

/-- The first of the numbered declarations that are left has as its number how many are before
it. -/
theorem index_of_suffix {declarations : List NodeId} {index : Nat} {rest : List (Nat × NodeId)}
    (h : (index, d) :: rest <:+ (List.range declarations.length).zip declarations) :
    index + rest.length + 1 = declarations.length := by
  obtain ⟨front, hfront⟩ := h
  have hlength := congrArg List.length hfront
  rw [List.length_append, List.length_cons, List.length_zip, List.length_range, min_self] at hlength
  have hget : ((List.range declarations.length).zip declarations)[front.length]? =
      some (index, d) := by
    rw [← hfront, List.getElem?_append_right (Nat.le_refl _), Nat.sub_self, List.getElem?_cons_zero]
  rw [List.getElem?_zip_eq_some, List.getElem?_range (by omega)] at hget
  have hindex := Option.some_inj.mp hget.1
  omega

/-- Where the removal of declarations from a list stands: some of those before are left, and all
that are to come. -/
structure Emptying (s : Store) (l p : NodeId) (numbered : List (Nat × NodeId)) (s' : Store) :
    Prop where
  thins : Thins s s'
  suffix : numbered <:+ (List.range (s.children l).length).zip (s.children l)
  row : (∃ done, s'.parent? l = some p ∧ s'.children l = done ++ numbered.map Prod.snd ∧
    done.length + numbered.length ≤ (s.children l).length) ∨ numbered = [] ∧ s'.children l ≠ []

section

variable (hs : s.Sound) (ho : s.Ordered) (howner : s.Owner G) (hinside : s.Inside G l)
  (hlist : s.kind l = .varList) (hlink : s.parent? l = some p)
  (hstatements : (s.kind p).isStatementList)

include hs howner hinside hlist hlink hstatements

omit hlist in
/-- A list that is where it has been is in the body where it has been. -/
theorem inside_of_link (hthins : Thins s s') (hlink' : s'.parent? l = some p) : s'.Inside G l := by
  have hmem := (hthins.ordered.linked p l).mpr hlink'
  rcases hinside.parent_of hs.toLinked hlink with rfl | hp
  · exact .child hmem
  · refine .step (hthins.lasting G p (howner.ownsBody hs) hp (.holder hstatements)) ?_ hmem
    intro hfunction
    rw [hthins.kind_eq (hs.parent_lt hlink)] at hfunction
    rw [hfunction] at hstatements
    cases hstatements

theorem Emptying.gives {index : Nat} {rest : List (Nat × NodeId)} (hidle : s.AllIdle G unused)
    (h : Emptying s l p ((index, d) :: rest) s') :
    Gives (removeDeclaration unused l (s.children l).length (index, d)) s' fun _ s'' =>
      Emptying s l p rest s'' := by
  have hindex := index_of_suffix h.suffix
  have hl := parent?_lt hlink
  obtain ⟨done, hlink', hchildren, hlength⟩ := h.row.resolve_right fun hnil =>
    List.cons_ne_nil _ _ hnil.1
  rw [List.length_cons] at hlength
  have hentry : Entry s' G l p d done (rest.map Prod.snd) := by
    refine ⟨h.thins.owner_iff.mpr howner, ?_, (h.thins.kind_eq hl).trans hlist, hlink', ?_, hchildren⟩
    · exact inside_of_link hs howner hinside hlink hstatements h.thins hlink'
    · rwa [h.thins.kind_eq (hs.parent_lt hlink)]
  refine (hentry.leaves_removeDeclaration h.thins.evolves.sound h.thins.ordered
    (hidle.of_thins h.thins) (by omega) (fun hzero => ?_) fun hcount => ?_).mono ?_
  · exact List.length_eq_zero_iff.mp (by omega)
  · exact List.map_eq_nil_iff.mpr (List.length_eq_zero_iff.mp (by omega))
  · rintro _ s'' ⟨hthins, hrow⟩
    refine ⟨h.thins.trans hthins hs, (List.suffix_cons _ _).trans h.suffix, ?_⟩
    rcases hrow with ⟨hlink'', hrow | hrow⟩ | ⟨hnil, hrow⟩
    · refine .inl ⟨done ++ [d], hlink'', ?_, ?_⟩
      · rw [hrow, List.append_assoc, List.singleton_append]
      · rw [List.length_append, List.length_singleton]
        omega
    · exact .inl ⟨done, hlink'', hrow, by omega⟩
    · exact .inr ⟨List.map_eq_nil_iff.mp hnil, hrow⟩

include ho in
/-- Removing the unused declarations of a list leaves what is needed. -/
theorem trims_removeDeclarations (hidle : s.AllIdle G unused) (hunused : unused ≠ []) :
    Trims (removeDeclarations unused l) s := by
  have hl := parent?_lt hlink
  rw [Trims, removeDeclarations, gives_bind, gives_get]
  dsimp only
  rw [gives_bind]
  refine (gives_sweep (I := Emptying s l p) ⟨.refl hs ho, List.suffix_refl _, ?_⟩
    fun item rest s' h => ?_).mono ?_
  · refine .inl ⟨[], hlink, ?_, ?_⟩
    · rw [map_snd_numbered, List.nil_append]
    · rw [List.length_zip, List.length_range, min_self, List.length_nil, Nat.zero_add]
  · exact h.gives hs howner hinside hlist hlink hstatements hidle
  · intro changed s' h
    refine gives_ite (fun _ => ?_) fun _ => h.thins
    rw [gives_bind, gives_get]
    refine gives_ite (fun hempty => ?_) fun _ => h.thins
    rw [List.isEmpty_iff] at hempty
    obtain ⟨done, hlink', -, -⟩ := h.row.resolve_right fun hrow => hrow.2 hempty
    have hstatements' : (s'.kind p).isStatementList := by
      rwa [h.thins.kind_eq (hs.parent_lt hlink)]
    have hin : s'.inStatementList l := by
      rw [inStatementList, parentKind?_of_parent hlink']
      exact hstatements'
    obtain ⟨name, hname⟩ := List.exists_mem_of_ne_nil unused hunused
    rw [gives_bind, gives_modify, gives_pure, removeStatement, if_pos hin]
    refine h.thins.trans ?_ hs
    refine (removal_list h.thins.evolves.sound h.thins.ordered (h.thins.owner_iff.mpr howner)
      (inside_of_link hs howner hinside hlink hstatements h.thins hlink')
      ((h.thins.kind_eq hl).trans hlist) hlink' hstatements'
      (h.thins.idle_iff.mpr (hidle name hname)) hempty).thins h.thins.evolves.sound h.thins.ordered

end

/-! ### Bodies -/

section

variable (hs : s.Sound) (ho : s.Ordered)

include hs ho

/-- An unused function is taken away, or gives way to an empty statement. -/
theorem thins_removeStatement (hG : s.kind G = .function) (hinside : s.Inside G f)
    (hkind : s.kind f = .function) (hdeclared : Tree.isDeclaredFunction (s.head f))
    (hidle : s.Idle G (s.text f)) : Thins s (s.removeStatement f) := by
  obtain ⟨p, hlink, -⟩ := hinside.parent hs.toLinked
  have hform : (s.head f).form ≠ some .expressed := by
    intro hform
    rw [Tree.isDeclaredFunction, hform] at hdeclared
    cases hdeclared
  have hreplaceable : s.Replaceable f := by
    refine ⟨by rw [hkind]; rfl, ?_⟩
    rw [Head.isExpression, show (s.head f).kind = _ from hkind]
    simpa [Kind.isStatement] using hform
  have hevolves := evolves_removeStatement hs (by rw [hkind]; rfl) (fun _ => hform) (by simp [hkind])
  have hordered : (s.removeStatement f).Ordered := by
    obtain ⟨C, hC⟩ := ho.arranged
    exact ⟨ho.toForest.removeStatement, (hC.removeStatement hreplaceable).arranged⟩
  by_cases hin : s.inStatementList f
  · rw [removeStatement, if_pos hin]
    exact (removal_function hs ho hG hinside hkind hdeclared hlink hidle).thins hs ho
  · rw [removeStatement, if_neg hin] at hevolves hordered ⊢
    rcases hadd : s.add { kind := .semicolon, span := s.span f } with ⟨w, s₁⟩
    rw [hadd] at hevolves hordered
    obtain ⟨rfl, hadded⟩ := added_of_add hs.toLinked hadd
    exact (removal_replace hs ho hadded rfl hG hinside hkind hdeclared hlink hidle hevolves
      hordered).thins hs ho

/-- What a node inside a body declares in vain is taken away. -/
theorem trims_removeAt {topLevel : Bool} (hthins : Thins s s') (hbody : s.BodyOf G body)
    (htop : topLevel = false → s.kind G = .function) (hidle : s.AllIdle G unused)
    (hunused : unused ≠ []) (hc : s.Inside G c) : Trims (removeAt unused topLevel body c) s' := by
  have hrefl := Thins.refl hthins.evolves.sound hthins.ordered
  have hlt := hc.lt hs.toLinked
  have hscript := hbody.kind_eq hs
  rw [Trims, removeAt, gives_bind, gives_get]
  refine gives_ite (fun _ => hrefl) fun hisInside => ?_
  have hwithin : s'.Within c body := within_of_isInside (by simpa using hisInside)
  split
  case h_1 hkind' =>
      have hkind : s.kind c = .function := (hthins.kind_eq hlt).symm.trans hkind'
      refine gives_ite (fun hcase => ?_) fun _ => hrefl
      simp only [Bool.and_eq_true, Bool.not_eq_true'] at hcase
      have hG := htop hcase.1.1
      rw [gives_bind, gives_modify, gives_pure]
      refine thins_removeStatement hthins.evolves.sound hthins.ordered (G := G) ?_ ?_ hkind'
        hcase.1.2 (hthins.idle_iff.mpr (hidle _ (text_mem_of_any hcase.2)))
      · rwa [hthins.kind_eq (hbody.owner.lt hs.toLinked)]
      · refine hthins.inside_of_isInside hs ho hbody hc (by simp [hkind]) ?_ hwithin
        rintro rfl
        rw [hkind] at hscript
        cases hscript
  case h_2 hkind' =>
      have hkind : s.kind c = .varList := (hthins.kind_eq hlt).symm.trans hkind'
      refine gives_ite (fun hin => ?_) fun _ => hrefl
      obtain ⟨p, hlink, hstatements⟩ := parent?_of_inStatementList hin
      cases hchildren : s'.children c with
      | nil =>
          rw [removeDeclarations, gives_bind, gives_get, hchildren]
          exact hrefl
      | cons d rest =>
          have hd : d ∈ s'.children c := hchildren ▸ List.mem_cons_self
          have hlinkd := hthins.ordered.parent?_of_mem hd
          have hkindd' := (hthins.ordered.admits hlinkd).declaration hkind'
          have hdlt : d < s.size := hthins.not_new (by rw [kind, hkindd']; simp)
            (by rw [kind, hkindd']; simp)
          have hkindd : s.kind d = .declaration := (hthins.kind_eq hdlt).symm.trans hkindd'
          have hlinkd' := (hthins.back d c hdlt hlt hlinkd).1
          -- The list is in the body since one of its declarations is.
          have hinside : s'.Inside G d := by
            refine hthins.inside_of_isInside hs ho hbody
              (hc.step (by simp [hkind]) ((hs.linked c d).mpr hlinkd')) (by simp [hkindd]) ?_
              ((within_of_parent hlinkd).trans hwithin)
            rintro rfl
            rw [hkindd] at hscript
            cases hscript
          have hinsidec := (hinside.parent_of hthins.evolves.sound.toLinked hlinkd).resolve_left <| by
            rintro rfl
            rcases hbody.owner.ownsBody hs with hcase | hcase <;> rw [hkind] at hcase <;> cases hcase
          exact trims_removeDeclarations hthins.evolves.sound hthins.ordered
            (hthins.owner_iff.mpr hbody.owner) hinsidec hkind' hlink hstatements
            (hidle.of_thins hthins) hunused
  case h_3 => exact hrefl

/-- Unused parameters at the end of the list are taken away. -/
theorem trims_removeTrailingParams (hkind : s.kind G = .function) (hidle : s.AllIdle G unused) :
    Trims (removeTrailingParams unused G) s := by
  rw [Trims, removeTrailingParams, gives_bind, gives_get]
  split
  · exact .refl hs ho
  case h_2 params hparams =>
      dsimp only
      have hG : G < s.size := lt_of_kind (by simp [hkind])
      have hpred : ∀ c ∈ (s.children params).reverse.takeWhile (fun c =>
          s.kind c == .identifier && unused.contains (s.text c)),
          c ∈ s.children params ∧ s.kind c = .identifier ∧ s.text c ∈ unused := by
        intro c hc
        have hmem := (List.takeWhile_prefix _).subset hc
        have hcase := List.all_eq_true.mp List.all_takeWhile c hc
        simp only [Bool.and_eq_true, beq_iff_eq, List.contains_iff_mem] at hcase
        exact ⟨List.mem_reverse.mp hmem, hcase⟩
      have hnodup := ((List.takeWhile_prefix (fun c =>
        s.kind c == .identifier && unused.contains (s.text c))).sublist.nodup
          (List.nodup_reverse.mpr (hs.nodup params)))
      -- The parameters to come are still there.
      refine (gives_sweep (I := fun rest s' => Thins s s' ∧ rest.Nodup ∧
        ∀ c ∈ rest, s'.parent? c = some params ∧ c ∈ s.children params ∧ s.kind c = .identifier ∧
          s.text c ∈ unused) ⟨.refl hs ho, hnodup, fun c hc => ?_⟩ ?_).mono fun _ _ h => h.1
      · exact ⟨hs.parent?_of_mem (hpred c hc).1, hpred c hc⟩
      · rintro c rest s' ⟨hthins, hnodup, hrest⟩
        rw [List.forall_mem_cons] at hrest
        rw [List.nodup_cons] at hnodup
        obtain ⟨⟨hlink, hmem, hname, hunused⟩, hrest⟩ := hrest
        have hc := hs.child_lt hmem
        have htext : s'.text c = s.text c :=
          Thins.text_eq_of_text? (hthins.text?_eq_of_kind hc (by simp [hname]))
        rw [gives_bind, gives_modify, gives_pure]
        refine ⟨hthins.trans ?_ hs, hnodup.2, fun c' hc' => ⟨?_, (hrest c' hc').2⟩⟩
        · refine (removal_parameter hthins.evolves.sound hthins.ordered
            ((hthins.kind_eq hG).trans hkind) ?_ ((hthins.ordered.linked _ _).mpr hlink)
            ((hthins.kind_eq hc).trans hname) ?_).thins hthins.evolves.sound hthins.ordered
          · exact hthins.child? hs.toLinked hG (by rw [hkind]; rfl) hparams
              (hs.fast_params hkind hparams)
          · rw [htext, hthins.idle_iff]
            exact hidle _ hunused
        · rw [parent?_remove, if_neg, (hrest c' hc').1]
          rintro rfl
          exact hnodup.1 hc'

/-- A function that does not use its own name loses it. -/
theorem trims_removeFunctionName (hkind : s.kind G = .function) (hidle : s.AllIdle G unused) :
    Trims (removeFunctionName unused G) s := by
  have hordered : Gives (removeFunctionName unused G) s fun _ s' => s'.Ordered :=
    (keepsOrder_removeFunctionName ho hkind).mono fun _ _ hs' => hs'.1
  refine (hordered.and (R := fun _ s' => s'.Ordered → Thins s s') ?_).mono fun _ _ h => h.2 h.1
  rw [removeFunctionName, gives_bind, gives_get]
  refine gives_ite (fun _ _ => .refl hs ho) fun hcase => ?_
  simp only [Bool.or_eq_true, bne_iff_ne, not_or, Bool.not_eq_true, ne_eq, not_not] at hcase
  split
  case h_1 name hname =>
      refine gives_ite (fun hmem => ?_) fun _ _ => .refl hs ho
      rw [gives_bind, gives_modify, gives_pure]
      refine thins_setPayload hs ho ⟨hkind, hcase.2, hcase.1⟩ (hidle _ ?_)
      rw [text, Head.text, hname]
      exact List.contains_iff_mem.mp hmem
  case h_2 => exact fun _ => .refl hs ho

/-- What a body declares in vain is taken away. -/
theorem trims_removeFromBody : Trims (removeFromBody G) s := by
  rw [Trims, removeFromBody, gives_bind, gives_get]
  split
  · exact .refl hs ho
  case h_2 scope hscope =>
      refine gives_ite (fun _ => .refl hs ho) fun hcase => ?_
      simp only [Bool.or_eq_true, Bool.not_eq_true', not_or, Bool.not_eq_false, Bool.not_eq_true,
        List.isEmpty_eq_false_iff] at hcase
      obtain ⟨⟨-, hunused⟩, heval⟩ := hcase
      have howner : s.Owner G := hs.owner_of_scope? G (by rw [hscope]; simp)
      have hidle : s.AllIdle G scope.unused := fun name hname => ⟨scope, hscope, heval, hname⟩
      refine gives_ite (fun hkind => ?_) fun hkind => ?_
      · have hpure : Trims (pure false) s := trims_pure hs ho
        have htrims := trims_removeTrailingParams hs ho hkind hidle
        refine gives_ite (fun _ => hpure.bind hs fun params s₁ h₁ => ?_) fun _ =>
          htrims.bind hs fun params s₁ h₁ => ?_
        -- The same is left whether or not there were parameters to remove.
        all_goals
          have hs₁ := h₁.evolves.sound
          have hkind₁ : s₁.kind G = .function :=
            (h₁.kind_eq (lt_of_kind (by simp [hkind]))).trans hkind
          have hidle₁ := hidle.of_thins h₁
          refine (trims_removeFunctionName hs₁ h₁.ordered hkind₁ hidle₁).bind hs₁ fun _ s₂ h₂ => ?_
          have hs₂ := h₂.evolves.sound
          have hkind₂ : s₂.kind G = .function :=
            (h₂.kind_eq (lt_of_kind (by simp [hkind₁]))).trans hkind₁
          rw [Trims, gives_bind, gives_get]
          split
          · exact .refl hs₂ h₂.ordered
          case h_2 body hbody =>
              have hbodyOf : s₂.BodyOf G body := .function hkind₂ hbody
              rw [gives_bind]
              exact trims_sweep hs₂ h₂.ordered fun c hc s₃ h₃ =>
                trims_removeAt hs₂ h₂.ordered h₃ hbodyOf (fun _ => hkind₂) (hidle₁.of_thins h₂)
                  hunused (hbodyOf.inside hs₂ (h₂.ordered.toForest.mem_bodyNodes.mp hc))
      · obtain rfl := howner.resolve_right hkind
        exact trims_sweep hs ho fun c hc s' hthins =>
          trims_removeAt hs ho hthins (.script rfl) (fun htop => by simp at htop) hidle hunused
            (ho.toForest.mem_bodyNodes.mp hc)

/-- A round takes away at most what its scan has found not to be needed. -/
theorem gives_round : Gives round s fun _ s' => Thins s.scanTree s' := by
  rw [round, gives_bind, gives_modify, gives_bind, gives_get]
  have hs₀ := (evolves_scanTree hs).sound
  have ho₀ := ho.scanTree
  exact trims_sweep hs₀ ho₀ fun _ _ _ h => trims_removeFromBody h.evolves.sound h.ordered

end

end Unused

end ScriptMin
