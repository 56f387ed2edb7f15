import ScriptMin.Proofs.Pass.Regrouping

/-!
The list that collects the names of a body. A new one comes to the start of the body, declarations
without initializer leave it, and it moves into the head of a loop behind it. Each step keeps what
happens in the body in order.
-/

namespace ScriptMin

open Edit

namespace Store

variable {s s' : Store} {parent child x : NodeId}

/-- A node comes to the front of the children of another one. -/
theorem children_insert_front (hparent : parent < s.size) : (s.insert parent 0 child).children x =
    if x = parent then child :: (s.detach child).children x else (s.detach child).children x := by
  rw [insert_eq, children_attach hparent, Nat.zero_min, List.insertIdx_zero]

theorem Forest.insert_front (h : s.Forest) (hparent : parent < s.size) (hchild : child < s.size)
    (hroot : child ≠ s.root) (hoff : ¬ s.Within parent child) : (s.insert parent 0 child).Forest := by
  rw [insert_eq]
  exact h.attach (fun ids => List.perm_insertIdx child ids (Nat.min_le_right _ _)) hparent hchild
    hroot hoff

end Store

namespace Declarations

open Store

variable {s s' s'' s₁ : Store} {b d p l list next new : NodeId} {before behind : List NodeId}
  {span : Span} {x : String}

/-! ### A list is made -/

/-- What an edit gives that puts a new list at the start of a body. -/
structure Opens (b new : NodeId) (s s' : Store) : Prop where
  forest : s'.Forest
  touches : Touches True (· = b) (fun _ => False) s s'
  new_eq : new = s.size
  kind_eq : s'.kind new = .varList
  role_new : s'.role? new = none
  children_new : s'.children new = []
  row : s'.children b = new :: s.children b
  parent_eq : ∀ x, s'.parent? x = if x = new then some b else s.parent? x
  role_eq : ∀ x, x ≠ new → s'.role? x = s.role? x

theorem opens_insert (h : s.Forest) (hb : b < s.size)
    (hadd : s.add { kind := .varList, span } = (new, s₁)) : Opens b new s (s₁.insert b 0 new) := by
  have hforest₁ : s₁.Forest := by
    obtain rfl : (s.add { kind := .varList, span }).2 = s₁ := congrArg Prod.snd hadd
    exact h.add _
  have ht₁ : Touches True _ _ s _ := touches_of_add h.toLinked (.inr ⟨trivial, rfl⟩) hadd
  obtain ⟨rfl, hadded⟩ := added_of_add h.toLinked hadd
  have hne : s.size ≠ b := Nat.ne_of_gt hb
  have hloose : s₁.parent? s.size = none := by
    rw [hadded.parent_eq, parent?_of_size_le (Nat.le_refl _)]
  have hb₁ : b < s₁.size := ht₁.lt hb
  have hnew : s.size < s₁.size := by
    rw [hadded.size_eq]
    exact Nat.lt_succ_self _
  have hroot : s.size ≠ s₁.root := by
    rw [hadded.root_eq]
    exact Nat.ne_of_gt h.root_lt
  have hoff : ¬ s₁.Within b s.size := by
    refine hforest₁.toLinked.not_within ?_ hne.symm
    rw [hadded.children_eq, children_of_size_le (Nat.le_refl _)]
  have hkind₁ : s₁.kind s.size = .varList := by rw [kind, hadded.head_eq, if_pos rfl]
  have hdetach : ∀ x, (s₁.detach s.size).children x = s.children x := fun x => by
    rw [children_detach, if_neg (by simp [hloose]), hadded.children_eq]
  refine ⟨hforest₁.insert_front hb₁ hnew hroot hoff, ?_, rfl, ?_, ?_, ?_, ?_, fun x => ?_,
    fun x hx => ?_⟩
  · refine (ht₁.trans (touches_insert hb₁ hnew (by simp [hkind₁]) 0)).mono ?_ ?_
    · rintro x - (hx | hx | hx)
      · exact hx.elim
      · exact hx
      · rw [hloose] at hx
        cases hx
    · rintro x hx - (hA | rfl)
      · exact hA
      · exact Nat.lt_irrefl _ hx
  · rw [insert_eq, kind, head_attach]
    exact hkind₁
  · rw [insert_eq, role?, head_attach, hadded.head_eq, if_pos rfl]
  · rw [children_insert_front hb₁, if_neg hne, hdetach, children_of_size_le (Nat.le_refl _)]
  · rw [children_insert_front hb₁, if_pos rfl, hdetach]
  · rw [parent?_insert hnew, hadded.parent_eq]
  · rw [insert_eq, role?, head_attach, hadded.head_eq, if_neg hx]
    rfl

namespace Opens

variable (h : Opens b new s s')
include h

theorem row_of_ne {x : NodeId} (hx : x < s.size) (hne : x ≠ b) : s'.children x = s.children x :=
  h.touches.row x hx hne

theorem ne {x : NodeId} (hx : x < s.size) : x ≠ new := h.new_eq ▸ Nat.ne_of_lt hx

/-- The new list is the first one of the body. -/
theorem lists_eq (hs : s.Forest) (hb : b < s.size) : s'.lists b = new :: s.lists b := by
  have hnew : s'.innerLists new = [new] := by
    rw [h.forest.innerLists_eq, if_pos h.kind_eq, if_neg (by simp [h.kind_eq]), Store.lists_eq,
      h.children_new]
    rfl
  have hother : ∀ c ∈ s.children b, s'.innerLists c = s.innerLists c := by
    intro c hc
    have hlink := hs.parent?_of_mem hc
    have hlt : ∀ x, s.Within x c → x < s.size := fun x hx => hx.lt_of_lt (hs.child_lt hc)
    have hinner : s'.inner c = s.inner c := by
      refine hs.inner_congr h.forest (fun x hx => h.touches.kind_eq (hlt x hx)) fun x hx => ?_
      refine h.row_of_ne (hlt x hx) ?_
      rintro rfl
      exact hs.acyclic _ _ hlink hx
    rw [innerLists, innerLists, hinner]
    refine List.filter_congr fun x hx => ?_
    rw [h.touches.kind_eq (hlt x (hs.within_of_mem_inner hx))]
  rw [Store.lists_eq, Store.lists_eq, h.row, List.flatMap_cons, hnew, List.flatMap_congr hother]
  rfl

theorem not_isIterator : isIterator s' new = false := by
  rw [isIterator, h.role_new]
  rfl

/-- The step of a combination that makes a list. -/
theorem combines (hsupplied : s.Supplied) (hbody : s.kind b = .script) (hb : b < s.size) :
    Combines b (· = new) s s' where
  forest := h.forest
  touches := by
    refine h.touches.mono ?_ fun _ _ _ hx => hx
    rintro x - rfl
    exact ⟨.inl rfl, by simp [hbody], by rw [hbody]; rfl, fun hx => hx.kind_ne_script hbody,
      by simp [hbody]⟩
  held c hc := by
    rw [h.parent_eq, if_neg (h.ne hc)]
    exact .inl rfl
  stay x hx _ _ c hc _ := by
    refine ⟨?_, h.role_eq c (h.ne (hsupplied.sound.child_lt hc))⟩
    by_cases hne : x = b
    · rw [hne] at hc ⊢
      rw [h.row]
      exact List.mem_cons_of_mem _ hc
    · rwa [h.row_of_ne hx hne]
  clause x hx role hrole := by
    refine h.touches.child?_eq hx ?_ role
    rintro rfl
    rw [hbody] at hrole
    cases hrole
  plain l hkind hit _ _ := by
    rw [isIterator, h.role_eq l (h.ne (lt_of_kind (by simp [hkind])))]
    exact hit
  changed r hr := by
    subst hr
    exact ⟨h.kind_eq, .inl h.new_eq.ge, fun _ => ⟨h.new_eq.ge, h.not_isIterator⟩⟩
  events keep _ hkeep y hy _ := by
    have hf := hsupplied.ordered.toForest
    refine h.touches.events_eq (T := fun _ => False) hf h.forest (fun _ _ hT => hT.elim) ?_ hy
      not_false
    rintro _ hlt rfl - hbelow
    refine h.touches.events_of_row hf h.forest hlt (by rw [hbody]; rfl) ?_
    have hnew : s'.events keep new = [] := by
      rw [h.forest.events_list h.kind_eq, h.children_new, List.filter_singleton, hkeep new rfl]
      rfl
    rw [h.row, List.flatMap_cons, hnew, List.nil_append]
    refine List.flatMap_congr fun c hc => hbelow c ?_ (hf.ne_of_mem hc) not_false
    exact within_of_parent (hf.parent?_of_mem hc)

/-- The lists of the body declare what they have declared. -/
theorem lists_iff (hsupplied : s.Supplied) (hbody : s.kind b = .script) (hb : b < s.size) :
    Lists s' b x ↔ Lists s b x := by
  have hf := hsupplied.ordered.toForest
  have hold : ∀ l ∈ s.lists b, listNames s' l = listNames s l := by
    intro l hl
    have hkind := (hf.mem_lists.mp hl).2
    refine (spares_of_kinds h.touches hsupplied h.forest hkind ?_).listNames_eq ?_
    · rintro _ rfl
      rw [hbody]
      exact ⟨by simp, rfl⟩
    · refine h.row_of_ne (lt_of_kind (by simp [hkind])) ?_
      rintro rfl
      simp [hbody] at hkind
  have hnew : listNames s' new = [] := by rw [listNames, h.children_new, List.flatMap_nil]
  rw [Lists, Lists, h.lists_eq hf hb]
  simp only [List.exists_mem_cons_iff, hnew, List.not_mem_nil, false_or]
  exact exists_congr fun l => and_congr_right fun hl => by rw [hold l hl]

end Opens

/-! ### A declaration is dropped -/

theorem child?_eq_none_of_not_isInitialized (h : isInitialized s d = false) :
    s.child? d .initializer = none ∧ s.child? d .names = none := by
  rw [isInitialized, Bool.or_eq_false_iff] at h
  exact ⟨Option.isNone_iff_eq_none.mp (Option.isSome_eq_false_iff.mp h.1),
    Option.isNone_iff_eq_none.mp (Option.isSome_eq_false_iff.mp h.2)⟩

theorem children_remove_list (h : s.Linked) (hd : d ∈ s.children list) (x : NodeId) :
    (s.remove d).children x =
      if x = list then (s.children list).filter (· ≠ d) else s.children x := by
  rw [h.children_remove]
  split
  case isTrue heq => rw [heq]
  case isFalse hne =>
      refine List.filter_eq_self.mpr fun c hc => decide_eq_true ?_
      rintro rfl
      have hlink := h.parent?_of_mem hd
      rw [h.parent?_of_mem hc, Option.some_inj] at hlink
      exact hne hlink

theorem touches_remove_declaration (h : s.Linked) (hd : d ∈ s.children list)
    (hkind : s.kind d = .declaration) : Touches True (· = list) (fun _ => False) s (s.remove d) := by
  refine (touches_remove h).mono ?_ fun _ _ _ hx => hx
  rintro x - (hx | hx)
  · exact Option.some_inj.mp (hx.symm.trans (h.parent?_of_mem hd))
  · rw [hkind] at hx
    cases hx.1

/-- The step of a combination that drops a declaration without initializer. -/
theorem combines_remove (h : s.Supplied) (hlist : s.Inside b list) (hkind : s.kind list = .varList)
    (hit : isIterator s list = false) (hd : d ∈ s.children list)
    (hidle : isInitialized s d = false) : Combines b (fun _ => False) s (s.remove d) := by
  have hf := h.ordered.toForest
  have hlink := hf.parent?_of_mem hd
  have hkindd := h.declaration_of_mem hkind hd
  have htouches := touches_remove_declaration hf.toLinked hd hkindd
  have hrow := children_remove_list hf.toLinked hd
  refine ⟨hf.remove, ?_, fun c hc => ?_, fun x hx hxkind _ c hc _ => ?_, fun x hx role hrole => ?_,
    fun l hlkind hitl _ _ => ?_, fun _ hr => hr.elim, fun keep _ _ y hy hbody => ?_⟩
  · refine htouches.mono ?_ fun _ _ _ hx => hx
    rintro x - rfl
    exact h.touchable_list hlist hkind hit
  · rw [parent?_remove]
    split
    case isTrue heq =>
        rw [heq]
        exact .inr ⟨hlist.step (by simp [hkind]) hd, h.not_inIterator_of_mem hkind hit hd,
          fun _ => ⟨list, hlink, hkind⟩⟩
    case isFalse => exact .inl rfl
  · have hne : x ≠ list := by
      rintro rfl
      exact hxkind hkind
    exact ⟨by rwa [hrow, if_neg hne], htouches.role x hx hne c hc⟩
  · refine htouches.child?_eq hx ?_ role
    rintro rfl
    rw [hkind] at hrole
    cases hrole
  · have hne : l ≠ d := by
      rintro rfl
      rw [hkindd] at hlkind
      cases hlkind
    rw [isIterator, role?_remove hne]
    exact hitl
  · refine htouches.events_eq (T := (· = d)) hf hf.remove ?_ ?_ hy ?_
    · rintro _ q rfl hq
      rw [hlink, Option.some_inj] at hq
      exact .inl hq.symm
    · rintro _ hlt rfl - hbelow
      refine htouches.events_of_row hf hf.remove hlt (by rw [hkind]; rfl) ?_
      obtain ⟨before, behind, hsplit⟩ := List.append_of_mem hd
      have hother : ∀ c ∈ before ++ behind, (s.remove d).events keep c = s.events keep c := by
        intro c hc
        obtain ⟨hmem, hne⟩ := hf.mem_of_split hsplit hc
        exact hbelow c (within_of_parent (hf.parent?_of_mem hmem)) (hf.ne_of_mem hmem) hne
      have hnone : s.events keep d = [] :=
        hf.events_of_idle hkindd (child?_eq_none_of_not_isInitialized hidle).1
      rw [hrow, if_pos rfl, hsplit, filter_ne_append (hsplit ▸ hf.nodup _),
        List.flatMap_congr hother, List.flatMap_append, List.flatMap_append, List.flatMap_cons, hnone,
        List.nil_append]
    · rintro rfl
      rw [hkindd] at hbody
      cases hbody

/-! ### All declarations are dropped that can be -/

/-- The declarations that stay when those without initializer are dropped whose name is declared
once more. -/
def kept (s : Store) (initialized : NameSet) : List NodeId → NameSet → List NodeId
  | [], _ => []
  | d :: rest, seen =>
    if isInitialized s d then d :: kept s initialized rest seen
    else if initialized.contains (s.text d) || seen.contains (s.text d) then
      kept s initialized rest seen
    else d :: kept s initialized rest (seen.insert (s.text d))

variable {initialized seen : NameSet} {ds : List NodeId}

theorem kept_sublist (s : Store) (initialized : NameSet) (ds : List NodeId) (seen : NameSet) :
    (kept s initialized ds seen).Sublist ds := by
  induction ds generalizing seen with
  | nil => exact List.Sublist.refl _
  | cons d rest ih =>
      rw [kept]
      split
      · exact (ih seen).cons_cons d
      split
      · exact (ih seen).cons d
      · exact (ih _).cons_cons d

theorem kept_congr (hinit : ∀ d ∈ ds, isInitialized s' d = isInitialized s d)
    (htext : ∀ d ∈ ds, s'.text d = s.text d) :
    kept s' initialized ds seen = kept s initialized ds seen := by
  induction ds generalizing seen with
  | nil => rfl
  | cons d rest ih =>
      rw [List.forall_mem_cons] at hinit htext
      have hrest : ∀ seen, kept s' initialized rest seen = kept s initialized rest seen :=
        fun _ => ih hinit.2 htext.2
      rw [kept, kept, hinit.1, htext.1, hrest, hrest]

/-- What has stayed stays. -/
theorem kept_kept : kept s initialized (kept s initialized ds seen) seen =
    kept s initialized ds seen := by
  induction ds generalizing seen with
  | nil => rfl
  | cons d rest ih =>
      by_cases hinit : isInitialized s d
      · rw [kept, if_pos hinit, kept, if_pos hinit, ih]
      by_cases hdrop : initialized.contains (s.text d) || seen.contains (s.text d)
      · rw [kept, if_neg hinit, if_pos hdrop, ih]
      · rw [kept, if_neg hinit, if_neg hdrop, kept, if_neg hinit, if_neg hdrop, ih]

/-- Declarations with initializers stay. -/
theorem filter_kept : (kept s initialized ds seen).filter (isInitialized s) =
    ds.filter (isInitialized s) := by
  induction ds generalizing seen with
  | nil => rfl
  | cons d rest ih =>
      rw [kept]
      split
      case isTrue hinit => rw [List.filter_cons_of_pos hinit, List.filter_cons_of_pos hinit, ih]
      case isFalse hinit =>
          split
          · rw [List.filter_cons_of_neg hinit, ih]
          · rw [List.filter_cons_of_neg hinit, List.filter_cons_of_neg hinit, ih]

/-- A name that is declared is declared by what stays, or else it is among the other names. -/
theorem mem_names_kept (hd : d ∈ ds) (hx : x ∈ namesOf s d) : x ∈ initialized ∨ x ∈ seen ∨
    ∃ e ∈ kept s initialized ds seen, x ∈ namesOf s e := by
  induction ds generalizing seen with
  | nil => cases hd
  | cons c rest ih =>
      rw [kept]
      split
      case isTrue hinit =>
          rcases List.mem_cons.mp hd with rfl | hd
          · exact .inr (.inr ⟨d, List.mem_cons_self, hx⟩)
          · refine (ih hd).imp_right (Or.imp_right fun ⟨e, he, hx⟩ => ⟨e, ?_, hx⟩)
            exact List.mem_cons_of_mem _ he
      case isFalse hinit =>
          have hnone := (child?_eq_none_of_not_isInitialized (Bool.eq_false_iff.mpr hinit)).2
          have hname : ∀ {x}, x ∈ namesOf s c → x = s.text c := fun hx => by
            rw [namesOf, hnone] at hx
            exact List.mem_singleton.mp hx
          split
          case isTrue hdrop =>
              rcases List.mem_cons.mp hd with rfl | hd
              · rw [hname hx]
                simp only [Bool.or_eq_true, List.contains_iff_mem] at hdrop
                exact hdrop.imp_right .inl
              · exact ih hd
          case isFalse =>
              rcases List.mem_cons.mp hd with rfl | hd
              · exact .inr (.inr ⟨d, List.mem_cons_self, hx⟩)
              rcases @ih (seen.insert (s.text c)) hd with hinit | hseen | ⟨e, he, hx⟩
              · exact .inl hinit
              · rcases NameSet.mem_insert.mp hseen with rfl | hseen
                · refine .inr (.inr ⟨c, List.mem_cons_self, ?_⟩)
                  rw [namesOf, hnone]
                  exact List.mem_singleton_self _
                · exact .inr (.inl hseen)
              · exact .inr (.inr ⟨e, List.mem_cons_of_mem _ he, hx⟩)

def initializedNames (s : Store) (list : NodeId) : NameSet :=
  NameSet.ofList (((s.children list).filter (isInitialized s)).flatMap (namesOf s))

/-- What stays of a list declares what the list has declared. -/
theorem mem_flatMap_kept :
    x ∈ (kept s (initializedNames s list) (s.children list) []).flatMap (namesOf s) ↔
      x ∈ listNames s list := by
  rw [listNames, List.mem_flatMap, List.mem_flatMap]
  constructor
  · rintro ⟨d, hd, hx⟩
    exact ⟨d, (kept_sublist _ _ _ _).subset hd, hx⟩
  · rintro ⟨d, hd, hx⟩
    have hfilter : (kept s (initializedNames s list) (s.children list) []).filter
        (isInitialized s) = (s.children list).filter (isInitialized s) := filter_kept
    have hcases : x ∈ initializedNames s list ∨ x ∈ ([] : NameSet) ∨
        ∃ e ∈ kept s (initializedNames s list) (s.children list) [], x ∈ namesOf s e :=
      mem_names_kept hd hx
    rcases hcases with hinit | hseen | hkept
    · rw [initializedNames, NameSet.mem_ofList, ← hfilter, List.mem_flatMap] at hinit
      exact hinit.imp fun e he => ⟨List.mem_of_mem_filter he.1, he.2⟩
    · cases hseen
    · exact hkept

/-- No declaration of a list can be dropped. -/
def Pruned (s : Store) (list : NodeId) : Prop :=
  kept s (initializedNames s list) (s.children list) [] = s.children list

/-- What an edit gives that drops declarations of a list. -/
structure Prunes (b list : NodeId) (s s' : Store) : Prop where
  combines : Combines b (fun _ => False) s s'
  supplied : s'.Supplied
  touches : Touches True (· = list) (fun _ => False) s s'

theorem supplied_remove (h : s.Supplied) (hkind : s.kind list = .varList) (hd : d ∈ s.children list) :
    (s.remove d).Supplied := by
  obtain ⟨C, hC⟩ := h.ordered.arranged
  have hportable := h.sound.portable_of_mem hd (by simp [hkind])
  have hfills : Fills ∅ s (s.remove d) := fills_removeFrom h.ample fun p hp => by
    rw [h.sound.parent?_of_mem hd, Option.some_inj] at hp
    simp [← hp, hkind]
  exact ⟨(evolves_remove h.sound hportable.not_key).sound,
    ⟨h.ordered.toForest.remove, hC.remove.rearranged.arranged⟩, hfills.ample⟩

theorem Prunes.refl (h : s.Supplied) (b list : NodeId) : Prunes b list s s :=
  ⟨.refl h.ordered.toForest b, h, .refl _ _ _⟩

theorem Prunes.trans (h : Prunes b list s s') (h' : Prunes b list s' s'') (hs : s.Linked) :
    Prunes b list s s'' :=
  ⟨(h.combines.trans h'.combines hs).mono (fun _ hr => hr.elim id id) fun _ hr => hr.elim,
    h'.supplied, (h.touches.trans h'.touches).mono (fun _ _ hx => hx.elim id id)
      fun _ _ _ hx => hx.elim id id⟩

/-- Where no list comes or goes, the lists of a body stay. -/
theorem lists_eq_of_combines (h : Combines b (fun _ => False) s s') (hs : s.Supplied)
    (hs' : s'.Sound) (hb : b < s.size) (hbody : s.kind b = .script) : s'.lists b = s.lists b := by
  have hlists := h.lists_eq hs.sound hs.ordered.toForest hs' hb hbody fun _ hr => hr.elim
  simpa using hlists

theorem gives_prune (h : s.Supplied) (hb : b < s.size) (hbody : s.kind b = .script)
    (hlist : list ∈ s.lists b) (hit : isIterator s list = false)
    (hrow : s.children list = before ++ ds) :
    Gives (prune initialized ds seen) s fun _ s' =>
      Prunes b list s s' ∧ s'.children list = before ++ kept s initialized ds seen := by
  induction ds generalizing s seen before with
  | nil => exact ⟨.refl h b list, hrow⟩
  | cons d rest ih =>
      have hf := h.ordered.toForest
      obtain ⟨hinside, hkind⟩ := hf.mem_lists.mp hlist
      have hd : d ∈ s.children list := by simp [hrow]
      have hrow' : s.children list = (before ++ [d]) ++ rest := by simp [hrow]
      have hstays : ∀ {seen}, Gives (prune initialized rest seen) s fun _ s' => Prunes b list s s' ∧
          s'.children list = before ++ d :: kept s initialized rest seen := fun {seen} => by
        simpa using ih h hb hbody hlist hit hrow'
      rw [prune, gives_bind, gives_get, kept]
      refine gives_ite (fun hinit => ?_) fun hinit => ?_
      · rw [if_pos hinit]
        exact hstays
      rw [if_neg hinit]
      refine gives_ite (fun hdrop => ?_) fun hdrop => ?_
      on_goal 2 =>
        rw [if_neg hdrop]
        exact hstays
      rw [if_pos hdrop, gives_bind, gives_modify, gives_bind]
      have hidle : isInitialized s d = false := by simpa using hinit
      have hcombines := combines_remove h hinside hkind hit hd hidle
      have htouches := touches_remove_declaration hf.toLinked hd (h.declaration_of_mem hkind hd)
      have h₁ := supplied_remove h hkind hd
      have hlist₁ : list ∈ (s.remove d).lists b := by
        rwa [lists_eq_of_combines hcombines h h₁.sound hb hbody]
      have hit₁ : isIterator (s.remove d) list = false := by
        rwa [hcombines.isIterator_eq hf hlist hlist₁]
      have hrow₁ : (s.remove d).children list = before ++ rest := by
        rw [children_remove_list hf.toLinked hd, if_pos rfl, hrow, filter_ne_append]
        exact hrow ▸ hf.nodup list
      refine (ih h₁ (hcombines.lt hb) ((hcombines.kind_eq hb).trans hbody) hlist₁ hit₁ hrow₁).mono ?_
      rintro _ s' ⟨hprunes, hrow'⟩
      refine ⟨Prunes.trans ⟨hcombines, h₁, htouches⟩ hprunes hf.toLinked, hrow'.trans ?_⟩
      have hold : ∀ x ∈ rest, x < s.size ∧ x ≠ list := fun x hx => by
        have hmem : x ∈ s.children list := by simp [hrow, hx]
        exact ⟨hf.child_lt hmem, hf.ne_of_mem hmem⟩
      rw [kept_congr (fun x hx => htouches.isInitialized_eq (hold x hx).1 (hold x hx).2)
        fun x hx => htouches.text_eq (hold x hx).1]

namespace Spares

variable (h : Spares list s s') (hds : ds ⊆ s.children list)
include h hds

theorem kept_eq : kept s' initialized ds seen = kept s initialized ds seen :=
  kept_congr (fun d hd => h.initialized d (hds hd)) fun d hd => h.text d (hds hd)

theorem names_eq : (ds.filter (isInitialized s')).flatMap (namesOf s') =
    (ds.filter (isInitialized s)).flatMap (namesOf s) := by
  rw [List.filter_congr fun d hd => h.initialized d (hds hd)]
  exact List.flatMap_congr fun d hd => h.names d (hds (List.mem_of_mem_filter hd))

omit hds

/-- What has been pruned stays so. -/
theorem pruned (hrow : s'.children list = s.children list) (hpruned : Pruned s list) :
    Pruned s' list := by
  rw [Pruned, initializedNames, hrow, h.names_eq (List.Subset.refl _),
    h.kept_eq (List.Subset.refl _)]
  exact hpruned

end Spares

theorem gives_pruneList (h : s.Supplied) (hb : b < s.size) (hbody : s.kind b = .script)
    (hlist : list ∈ s.lists b) (hit : isIterator s list = false) :
    Gives (pruneList list) s fun _ s' => Prunes b list s s' ∧ Pruned s' list ∧
      ∀ x, Lists s' b x ↔ Lists s b x := by
  rw [pruneList, gives_bind, gives_get]
  have hrow : s.children list = [] ++ s.children list := rfl
  have hkind := (h.ordered.toForest.mem_lists.mp hlist).2
  refine (gives_prune h hb hbody hlist hit hrow).mono ?_
  rintro _ s' ⟨hprunes, hrow'⟩
  replace hrow' : s'.children list = kept s (initializedNames s list) (s.children list) [] := hrow'
  have hspares : ∀ {l}, s.kind l = .varList → Spares l s s' := fun hkindl => by
    refine spares_of_kinds hprunes.touches h hprunes.combines.forest hkindl ?_
    rintro _ rfl
    rw [hkind]
    exact ⟨by simp, rfl⟩
  have hds : kept s (initializedNames s list) (s.children list) [] ⊆ s.children list :=
    (kept_sublist _ _ _ _).subset
  have hnames : initializedNames s' list = initializedNames s list := by
    rw [initializedNames, hrow', (hspares hkind).names_eq hds, filter_kept]
    rfl
  refine ⟨hprunes, ?_, fun x => lists_iff ?_ fun l hl => ?_⟩
  · rw [Pruned, hnames, hrow', (hspares hkind).kept_eq hds, kept_kept]
  · exact lists_eq_of_combines hprunes.combines h hprunes.supplied.sound hb hbody
  · have hkindl := (h.ordered.toForest.mem_lists.mp hl).2
    by_cases hne : l = list
    · rw [hne, ← mem_flatMap_kept (s := s), listNames, hrow',
        List.flatMap_congr fun d hd => (hspares hkind).names d (hds hd)]
    · rw [(hspares hkindl).listNames_eq (hprunes.touches.row l (lt_of_kind (by simp [hkindl])) hne)]

/-! ### The list moves into the head of a loop -/

/-- A list of declarations stands before a loop with a head. -/
structure Precedes (s : Store) (p list next : NodeId) (before behind : List NodeId) : Prop
    extends Adjacent s p list next before behind where
  list : s.kind list = .varList
  loop : s.kind next = .forLoop

/-- What an edit gives that moves a list of declarations into the head of the loop behind it. -/
structure Enters (p list next : NodeId) (before behind : List NodeId) (s s' : Store) : Prop where
  forest : s'.Forest
  touches : Touches True (fun x => x = p ∨ x = list ∨ x = next) (fun _ => False) s s'
  parent_eq : ∀ x, s'.parent? x = if x = list then some next else s.parent? x
  role_list : s'.role? list = some .setup
  role_eq : ∀ x, x ≠ list → s'.role? x = s.role? x
  row_place : s'.children p = before ++ next :: behind
  row_list : s'.children list = s.children list
  row_next : s'.children next = list :: s.children next

theorem Precedes.enters (h : Precedes s p list next before behind) (hf : s.Forest) :
    Enters p list next before behind s ((s.insert next 0 list).setRole list (some .setup)) := by
  obtain ⟨hlink, hlink'⟩ := h.links hf
  have hne := h.ne hf
  have hlt : next < s.size := parent?_lt hlink'
  have hltlist : list < s.size := parent?_lt hlink
  have hoff : ¬ s.Within next list := hf.not_within_sibling hlink' hlink hne.symm
  have hinsert := hf.insert_front hlt hltlist (hf.ne_root hlink) hoff
  have hplace : p ≠ next ∧ p ≠ list := by
    refine ⟨?_, ?_⟩
    · rintro rfl
      exact hf.acyclic _ _ hlink' .refl
    · rintro rfl
      exact hf.acyclic _ _ hlink .refl
  have hrow : ∀ x, ((s.insert next 0 list).setRole list (some .setup)).children x =
      if x = next then list :: (s.detach list).children x else (s.detach list).children x := by
    intro x
    rw [Store.setRole, children_modifyHead, children_insert_front hlt]
  have hdetach : ∀ x, (s.detach list).children x =
      if x = p then before ++ next :: behind else s.children x := by
    intro x
    rw [children_detach, hlink]
    by_cases hx : x = p
    · have hnodup := h.row ▸ hf.nodup p
      rw [hx, if_pos rfl, if_pos rfl, h.row, filter_ne_append hnodup]
    · rw [if_neg fun heq => hx (Option.some_inj.mp heq).symm, if_neg hx]
  refine ⟨hinsert.setRole _, ?_, fun x => ?_, ?_, fun x hx => ?_, ?_, ?_, ?_⟩
  · refine ((touches_insert hlt hltlist (by simp [h.list]) 0).trans
      (touches_setRole hinsert.toLinked list (some .setup))).mono ?_ ?_
    · rintro x - ((hx | hx) | hx | hx)
      · exact .inr (.inr hx)
      · exact .inl (Option.some_inj.mp (hx.symm.trans hlink))
      · rw [parent?_insert hltlist, if_pos rfl, Option.some_inj] at hx
        exact .inr (.inr hx.symm)
      · exact .inr (.inl hx.2)
    · rintro x - hnone (rfl | hx)
      · rw [hlink] at hnone
        cases hnone
      · exact hx
  · rw [parent?_setRole, parent?_insert hltlist]
  · refine role?_setRole ?_ _
    rwa [insert_eq, size_attach]
  · rw [role?_setRole_of_ne hx, insert_eq, role?, head_attach]
    rfl
  · rw [hrow, if_neg hplace.1, hdetach, if_pos rfl]
  · rw [hrow, if_neg hne, hdetach, if_neg hplace.2.symm]
  · rw [hrow, if_pos rfl, hdetach, if_neg hplace.1.symm]

/-- A loop with a head brings what its parts bring. -/
theorem events_of_forLoop (h : s.Forest) {keep : Event → Bool} (hloop : s.kind next = .forLoop)
    (hkeep : keep (.passes next) = false) :
    s.events keep next = (s.children next).flatMap (s.events keep) := by
  have hgoes : (s.kind next).goesOn := by rw [hloop]; rfl
  have hexpression : (s.head next).isExpression = false := by
    rw [Head.isExpression, show (s.head next).kind = .forLoop from hloop]
    rfl
  have hevent : s.event? next = some (.passes next) := by
    rw [event?_of_goesOn hgoes, if_neg (by simp [hloop]), hexpression]
    rfl
  rw [h.events_eq, bodyEvents, onward_of_goesOn hgoes, hevent, Option.toList_some,
    List.filter_singleton, hkeep, cond_false, List.nil_append]

namespace Enters

variable (he : Enters p list next before behind s s')
  (hp : Precedes s p list next before behind)
include he

theorem row_of_ne {x : NodeId} (hx : x < s.size) (hpx : x ≠ p) (hlist : x ≠ list) (hnext : x ≠ next) :
    s'.children x = s.children x := by
  refine he.touches.row x hx ?_
  rintro (hD | hD | hD)
  exacts [hpx hD, hlist hD, hnext hD]

include hp

/-- What the list brought before the loop it brings in the head of the loop. -/
theorem events_place {keep : Event → Bool} (hf : s.Forest) (hkeep : keep (.passes next) = false)
    (hsame : ∀ x, s.Within x p → x ≠ p → x ≠ next → s'.events keep x = s.events keep x) :
    s'.events keep p = s.events keep p := by
  obtain ⟨hlink, hlink'⟩ := hp.links hf
  have hother : ∀ c ∈ before ++ behind, s'.events keep c = s.events keep c := by
    intro c hc
    obtain ⟨hmem, -, hnext⟩ := hp.others hf hc
    exact hsame c (within_of_parent (hf.parent?_of_mem hmem)) (hf.ne_of_mem hmem) hnext
  have hloop : s'.events keep next = s.events keep list ++ s.events keep next := by
    have hkind : s'.kind next = .forLoop := (he.touches.kind_eq (parent?_lt hlink')).trans hp.loop
    have hparts : ∀ c ∈ s.children next, s'.events keep c = s.events keep c := by
      intro c hc
      have hlinkc := hf.parent?_of_mem hc
      refine hsame c ((within_of_parent hlinkc).trans (within_of_parent hlink')) ?_ (hf.ne_of_mem hc)
      rintro rfl
      exact hf.acyclic _ _ hlinkc (within_of_parent hlink')
    have hlist : s'.events keep list = s.events keep list :=
      hsame list (within_of_parent hlink) (hf.ne_of_mem ((hf.linked _ _).mpr hlink)) (hp.ne hf)
    rw [events_of_forLoop he.forest hkind hkeep, events_of_forLoop hf hp.loop hkeep, he.row_next,
      List.flatMap_cons, List.flatMap_congr hparts, hlist]
  refine he.touches.events_of_row hf he.forest (hf.parent_lt hlink) hp.kind_ne.2.2.2.1 ?_
  rw [he.row_place, hp.row]
  simp only [List.flatMap_append, List.flatMap_cons, hloop, List.append_assoc]
  rw [List.flatMap_congr fun c hc => hother c (List.mem_append_left _ hc),
    List.flatMap_congr fun c hc => hother c (List.mem_append_right _ hc)]

/-- The step of a combination that moves a list into the head of a loop. -/
theorem combines (h : s.Supplied) (hinside : s.Inside b list) (hit : isIterator s list = false) :
    Combines b (fun _ => False) s s' := by
  have hf := h.ordered.toForest
  obtain ⟨hlink, hlink'⟩ := hp.links hf
  obtain ⟨hfunction, hplist, hpdeclaration, -, hbinding⟩ := hp.kind_ne
  have hplace : p = b ∨ s.Inside b p := by
    obtain ⟨q, hq, hinside⟩ := hinside.parent hf.toLinked
    obtain rfl := Option.some_inj.mp (hlink.symm.trans hq)
    exact hinside.imp_right And.right
  have hnext : s.Inside b next := by
    have hmem := (hf.linked p next).mpr hlink'
    rcases hplace with rfl | hplace
    · exact .child hmem
    · exact hplace.step hfunction hmem
  refine ⟨he.forest, he.touches.mono ?_ fun _ _ _ hx => hx, fun c hc => ?_,
    fun x hx hlist _ c hc hckind => ?_, fun x hx role hrole => ?_, fun l hl hitl _ _ => ?_,
    fun _ hr => hr.elim, fun keep hstable _ y hy hkind => ?_⟩
  · rintro x - (rfl | rfl | rfl)
    · exact h.touchable_place hinside hp.list hlink
    · exact h.touchable_list hinside hp.list hit
    · exact ⟨.inr hnext, by simp [hp.loop], by rw [hp.loop]; rfl, h.not_inIterator_of_parent hlink'
        (h.not_inIterator_place hp.list hlink) (by simp [hp.loop]), by simp [hp.loop]⟩
  · rw [he.parent_eq]
    split
    case isTrue heq =>
        rw [heq]
        exact .inr ⟨hinside, h.not_inIterator_of_list hp.list hit, by simp [hp.list]⟩
    case isFalse => exact .inl rfl
  · have hne : c ≠ list := by
      rintro rfl
      exact hckind hp.list
    refine ⟨?_, he.role_eq c hne⟩
    by_cases hxp : x = p
    · rw [hxp, hp.row] at hc
      rw [hxp, he.row_place]
      simp only [List.mem_append, List.mem_cons] at hc ⊢
      tauto
    by_cases hxn : x = next
    · rw [hxn] at hc ⊢
      rw [he.row_next]
      exact List.mem_cons_of_mem _ hc
    · rwa [he.row_of_ne hx hxp (fun heq => hlist (heq ▸ hp.list)) hxn]
  · refine he.touches.child?_eq hx ?_ role
    rintro (rfl | rfl | rfl)
    · rw [hbinding] at hrole
      cases hrole
    · simp [hp.list, Kind.bindingRole?] at hrole
    · simp [hp.loop, Kind.bindingRole?] at hrole
  · by_cases hne : l = list
    · rw [isIterator, hne, he.role_list]
      rfl
    · rw [isIterator, he.role_eq l hne]
      exact hitl
  · refine he.touches.events_eq (T := (· = next)) hf he.forest ?_ ?_ hy ?_
    · rintro _ q rfl hq
      rw [hlink', Option.some_inj] at hq
      exact .inl (.inl hq.symm)
    · rintro z hz (rfl | rfl | hD) hT hsame
      · exact he.events_place hp hf (hstable.loops next hp.loop) hsame
      · refine he.touches.events_of_row hf he.forest hz (by rw [hp.list]; rfl) ?_
        rw [he.row_list]
        refine List.flatMap_congr fun c hc => ?_
        have hlinkc := hf.parent?_of_mem hc
        refine hsame c (within_of_parent hlinkc) (hf.ne_of_mem hc) ?_
        rintro rfl
        have hkindc := h.declaration_of_mem hp.list hc
        rw [hp.loop] at hkindc
        cases hkindc
      · exact absurd hD hT
    · rintro rfl
      rw [hp.loop] at hkind
      cases hkind

/-- The declarations of all lists are what they were. -/
theorem spares (h : s.Supplied) (hl : s.kind l = .varList) :
    Spares l s s' ∧ s'.children l = s.children l := by
  refine ⟨spares_of_kinds he.touches h he.forest hl ?_, ?_⟩
  · rintro x (rfl | rfl | rfl)
    · exact ⟨hp.kind_ne.2.2.1, hp.inPattern_eq_false⟩
    · simp [hp.list, Kind.inPattern, Kind.isKey]
    · simp [hp.loop, Kind.inPattern, Kind.isKey]
  · by_cases hne : l = list
    · rw [hne, he.row_list]
    · refine he.row_of_ne (lt_of_kind (by simp [hl])) ?_ hne ?_
      · rintro rfl
        exact hp.kind_ne.2.1 hl
      · rintro rfl
        simp [hp.loop] at hl

end Enters

end Declarations

end ScriptMin
