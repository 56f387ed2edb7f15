import Mathlib.Data.List.Find
import ScriptMin.Proofs.Pass.Removals
import ScriptMin.Proofs.Store.Sweeping

/-!
Nodes that give way to parts of them. Beside the node and below what takes its place all nodes keep
their children, and nothing else is attached afterwards. Where the node is not in a list of
statements one node takes its place and its role, so that parts are found where they were.
-/

namespace ScriptMin.Store

variable {s s' : Store} {id x y p c n : NodeId} {news : List NodeId} {lost : Option NodeId}

/-- What stands in the place of a child if one node gives way to others and another one is lost. -/
def instead (id : NodeId) (news : List NodeId) (lost : Option NodeId) (c : NodeId) : List NodeId :=
  if c = id then news else if lost = some c then [] else [c]

/-- The node that stands in the place of another one if one node gives way to a single one. -/
def heir (id : NodeId) (news : List NodeId) (c : NodeId) : NodeId :=
  if c = id then news.headD id else c

/-- A node is not below one that gives way to others, or it is below one of these. -/
def Stays (s : Store) (id : NodeId) (news : List NodeId) (x : NodeId) : Prop :=
  ¬ s.Within x id ∨ ∃ n ∈ news, s.Within x n

/-- The children of a node that stays do so too, other than the node that gives way. -/
theorem Stays.of_parent (hp : s.Stays id news p) (hx : s.parent? x = some p) (hne : x ≠ id) :
    s.Stays id news x := by
  rcases hp with hout | ⟨n, hn, hin⟩
  · refine .inl fun hx' => ?_
    obtain heq | ⟨q, hq, hqid⟩ := hx'.cases
    · exact hne heq
    · rw [hx, Option.some_inj] at hq
      exact hout (hq ▸ hqid)
  · exact .inr ⟨n, hn, (within_of_parent hx).trans hin⟩

/-- A node gives way to parts of it or to new empty statements. A `break` at the end of a block in it
can be lost. -/
structure Cuts (s s' : Store) (id : NodeId) (news : List NodeId) (lost : Option NodeId) : Prop where
  base : s.Forest
  forest : s'.Forest
  size_le : s.size ≤ s'.size
  root_eq : s'.root = s.root
  ne_root : id ≠ s.root
  bare_eq : ∀ x < s.size, (s'.head x).bare = (s.head x).bare
  flags_eq : ∀ x < s.size, s'.flags x = s.flags x
  role_eq : ∀ x < s.size, s.Stays id news x → x ∉ news → lost ≠ some x → s'.role? x = s.role? x
  children_eq : ∀ x < s.size, s.Stays id news x →
    s'.children x = (s.children x).flatMap (instead id news lost)
  below : ∀ n ∈ news, n < s.size → s.Within n id ∧ n ≠ id
  apart : ∀ n ∈ news, ∀ n' ∈ news, s.Within n n' → n = n'
  added : ∀ n ∈ news, s.size ≤ n → s'.kind n = .semicolon ∧ s'.children n = []
  lost_leaf : ∀ y, lost = some y → s.kind y = .breakStmt ∧ s.children y = []
  lost_below : ∀ y, lost = some y → s.Within y id ∧ y ≠ id ∧
    ∃ p, s.parent? y = some p ∧ s.kind p = .block
  lost_top : ∀ y, lost = some y → ∀ n ∈ news, s.Within y n → y = n ∨ s.parent? y = some n
  alone : ∀ p, s.parent? id = some p → (s.kind p).isStatementList = false →
    ∃ n, news = [n] ∧ s'.role? n = s.role? id

namespace Cuts

theorem kind_eq (h : Cuts s s' id news lost) (hx : x < s.size) : s'.kind x = s.kind x :=
  Head.kind_of_bare (h.bare_eq x hx)

/-- What stands in the place of a child is the child itself or takes the place of the node. -/
theorem of_mem_instead (hx : x ∈ instead id news lost c) :
    c = id ∧ x ∈ news ∨ c ≠ id ∧ lost ≠ some c ∧ x = c := by
  rw [instead] at hx
  split at hx
  · exact .inl ⟨‹_›, hx⟩
  · split at hx
    · cases hx
    · exact .inr ⟨‹_›, ‹_›, List.mem_singleton.mp hx⟩

theorem not_within_of_ne_root (h : Cuts s s' id news lost) : ¬ s.Within s.root id := by
  intro hroot
  obtain heq | ⟨p, hp, -⟩ := hroot.cases
  · exact h.ne_root heq.symm
  · rw [h.base.root_parent] at hp
    cases hp

/-- What is attached afterwards was attached and stays, or it is new. -/
theorem of_attached (h : Cuts s s' id news lost) (hx : s'.Within x s'.root) :
    x < s.size ∧ s.Within x s.root ∧ s.Stays id news x ∨ x ∈ news ∧ s.size ≤ x := by
  induction hx using Relation.ReflTransGen.head_induction_on with
  | refl =>
      rw [h.root_eq]
      exact .inl ⟨h.base.root_lt, .refl, .inl h.not_within_of_ne_root⟩
  | @head x p hlink _ ih =>
      have hmem := (h.forest.linked p x).mpr hlink
      rcases ih with ⟨hlt, hattached, hstays⟩ | ⟨hnew, hle⟩
      · rw [h.children_eq p hlt hstays, List.mem_flatMap] at hmem
        obtain ⟨c, hc, hx⟩ := hmem
        have hcp := h.base.parent?_of_mem hc
        rcases of_mem_instead hx with ⟨rfl, hnew⟩ | ⟨hne, -, rfl⟩
        · by_cases hlt' : x < s.size
          · have hbelow := (h.below x hnew hlt').1
            exact .inl ⟨hlt', (hbelow.trans (within_of_parent hcp)).trans hattached,
              .inr ⟨x, hnew, .refl⟩⟩
          · exact .inr ⟨hnew, Nat.le_of_not_lt hlt'⟩
        · exact .inl ⟨h.base.child_lt hc, (within_of_parent hcp).trans hattached,
            hstays.of_parent hcp hne⟩
      · rw [(h.added p hnew hle).2] at hmem
        cases hmem

/-- What has children afterwards, or another kind than the empty statement, is not new. -/
theorem old_of_attached (h : Cuts s s' id news lost) (hx : s'.Within x s'.root)
    (hnot : s'.kind x ≠ .semicolon ∨ s'.children x ≠ []) :
    x < s.size ∧ s.Within x s.root ∧ s.Stays id news x := by
  refine (h.of_attached hx).resolve_right fun ⟨hnew, hle⟩ => ?_
  obtain ⟨hkind, hchildren⟩ := h.added x hnew hle
  exact hnot.elim (· hkind) (· hchildren)

/-- A node that is below another one afterwards was so before. -/
theorem within_of_within (h : Cuts s s' id news lost) (hy : s'.Within y s'.root)
    (hx : s'.Within x y) (hlt : x < s.size) : s.Within x y := by
  induction hx using Relation.ReflTransGen.head_induction_on with
  | refl => exact .refl
  | @head x p hlink hpy ih =>
      have hmem := (h.forest.linked p x).mpr hlink
      obtain ⟨hlt', -, hstays⟩ := h.old_of_attached (hpy.trans hy) (.inr (List.ne_nil_of_mem hmem))
      rw [h.children_eq p hlt' hstays, List.mem_flatMap] at hmem
      obtain ⟨c, hc, hx⟩ := hmem
      have hcp := within_of_parent (h.base.parent?_of_mem hc)
      rcases of_mem_instead hx with ⟨rfl, hnew⟩ | ⟨-, -, rfl⟩
      · exact ((h.below x hnew hlt).1.trans hcp).trans (ih hlt')
      · exact hcp.trans (ih hlt')

/-- What is not below the node stays where it is. -/
theorem isLocal (h : Cuts s s' id news lost) : Local s s' id where
  forest := h.forest
  root_eq := h.root_eq
  link x p _ hout hlink := by
    have hpout : ¬ s.Within p id := fun hp => hout ((within_of_parent hlink).trans hp)
    refine h.forest.parent?_of_mem ?_
    rw [h.children_eq p (h.base.parent_lt hlink) (.inl hpout), List.mem_flatMap]
    refine ⟨x, (h.base.linked p x).mpr hlink, ?_⟩
    rw [instead, if_neg, if_neg]
    · exact List.mem_singleton_self x
    · exact fun hlost => hout (h.lost_below x hlost).1
    · rintro rfl
      exact hout .refl

theorem attached_of_not_within (h : Cuts s s' id news lost) (hx : s.Within x s.root)
    (hout : ¬ s.Within x id) : s'.Within x s'.root := h.isLocal.reached h.base hx hout

/-- What stays is attached afterwards if it was before, unless it is lost. -/
theorem attached_of_stays (h : Cuts s s' id news lost) (hid : s.Within id s.root)
    (hx : s.Within x s.root) (hstays : s.Stays id news x) (hlost : lost ≠ some x) :
    s'.Within x s'.root := by
  rcases hstays with hout | ⟨n, hn, hin⟩
  · exact h.attached_of_not_within hx hout
  obtain ⟨q, hq, hqroot⟩ := hid.cases.resolve_left h.ne_root
  have hqout : ¬ s.Within q id := h.base.acyclic id q hq
  have hn' : s'.Within n s'.root := by
    refine (within_of_parent (h.forest.parent?_of_mem ?_)).trans
      (h.attached_of_not_within hqroot hqout)
    rw [h.children_eq q (h.base.parent_lt hq) (.inl hqout), List.mem_flatMap]
    exact ⟨id, (h.base.linked q id).mpr hq, by rwa [instead, if_pos rfl]⟩
  clear hx
  -- The induction is on the line from the node up to the one that takes the place.
  induction hin using Relation.ReflTransGen.head_induction_on with
  | refl => exact hn'
  | @head x p hlink hpn ih =>
      have hmem := (h.base.linked p x).mpr hlink
      have hplt := h.base.parent_lt hlink
      have hplost : lost ≠ some p := by
        intro hp
        rw [(h.lost_leaf p hp).2] at hmem
        cases hmem
      refine (within_of_parent (h.forest.parent?_of_mem ?_)).trans (ih hplost)
      rw [h.children_eq p hplt (.inr ⟨n, hn, hpn⟩), List.mem_flatMap]
      refine ⟨x, hmem, ?_⟩
      rw [instead, if_neg, if_neg hlost]
      · exact List.mem_singleton_self x
      · rintro rfl
        have hlt := h.base.within_lt hplt hpn
        exact h.base.acyclic x p hlink (hpn.trans (h.below n hn hlt).1)

/-- What is no longer attached is below the node and below nothing that takes its place. -/
theorem of_dropped (h : Cuts s s' id news lost) (hid : s.Within id s.root)
    (hx : s.Within x s.root) (hdropped : ¬ s'.Within x s'.root) (hkind : s.kind x ≠ .breakStmt) :
    s.Within x id ∧ ∀ n ∈ news, ¬ s.Within x n := by
  have hstays : ¬ s.Stays id news x := fun hstays =>
    hdropped (h.attached_of_stays hid hx hstays fun hlost => hkind (h.lost_leaf x hlost).1)
  rw [Stays, not_or, not_not, not_exists] at hstays
  exact ⟨hstays.1, fun n hn hxn => hstays.2 n ⟨hn, hxn⟩⟩

/-! ### Parts -/

/-- A node that is not a list of statements has its children, or their heirs. -/
theorem children_heir (h : Cuts s s' id news lost) (hx : x < s.size) (hstays : s.Stays id news x)
    (hlist : (s.kind x).isStatementList = false) :
    s'.children x = (s.children x).map (heir id news) := by
  rw [h.children_eq x hx hstays, List.map_eq_flatMap]
  refine List.flatMap_congr fun c hc => ?_
  have hlink := h.base.parent?_of_mem hc
  rw [instead, heir]
  split
  case isTrue heq =>
      obtain ⟨n, rfl, -⟩ := h.alone x (heq ▸ hlink) hlist
      rfl
  case isFalse =>
      refine if_neg fun hlost => ?_
      obtain ⟨-, -, p, hp, hblock⟩ := h.lost_below c hlost
      rw [hlink, Option.some_inj] at hp
      rw [hp, hblock] at hlist
      cases hlist

theorem not_mem_news_of_ne (h : Cuts s s' id news lost) (hstays : s.Stays id news x)
    (hlink : s.parent? c = some x) : c ∉ news := by
  intro hc
  have hlt := parent?_lt hlink
  obtain ⟨hbelow, hne⟩ := h.below c hc hlt
  rcases hstays with hout | ⟨n, hn, hin⟩
  · obtain ⟨q, hq, hqid⟩ := hbelow.cases.resolve_left hne
    rw [hlink, Option.some_inj] at hq
    exact hout (hq ▸ hqid)
  · obtain rfl := h.apart c hc n hn ((within_of_parent hlink).trans hin)
    exact h.base.acyclic c x hlink hin

/-- Heirs have the roles of those whose place they take. -/
theorem role_heir (h : Cuts s s' id news lost) (hstays : s.Stays id news x)
    (hlist : (s.kind x).isStatementList = false) (hc : c ∈ s.children x) :
    s'.role? (heir id news c) = s.role? c := by
  have hlink := h.base.parent?_of_mem hc
  rw [heir]
  split
  case isTrue heq =>
      subst heq
      obtain ⟨n, rfl, hrole⟩ := h.alone x hlink hlist
      exact hrole
  case isFalse hne =>
      refine h.role_eq c (h.base.child_lt hc) (hstays.of_parent hlink hne)
        (h.not_mem_news_of_ne hstays hlink) fun hlost => ?_
      obtain ⟨-, -, p, hp, hblock⟩ := h.lost_below c hlost
      rw [hlink, Option.some_inj] at hp
      rw [hp, hblock] at hlist
      cases hlist

theorem nth?_heir (h : Cuts s s' id news lost) (hx : x < s.size) (hstays : s.Stays id news x)
    (hlist : (s.kind x).isStatementList = false) (i : Nat) :
    s'.nth? x i = (s.nth? x i).map (heir id news) := by
  rw [nth?, h.children_heir hx hstays hlist, List.getElem?_map]
  rfl

theorem child?_heir (h : Cuts s s' id news lost) (hx : x < s.size) (hstays : s.Stays id news x)
    (hlist : (s.kind x).isStatementList = false) (role : Role) :
    s'.child? x role = (s.child? x role).map (heir id news) := by
  rw [child?, h.children_heir hx hstays hlist, List.find?_map, child?]
  congr 1
  refine List.find?_congr fun c hc => ?_
  rw [Function.comp_apply, h.role_heir hstays hlist hc]

/-- What is below an heir was below the node whose place it takes. -/
theorem within_of_heir (h : Cuts s s' id news lost) (hstays : s.Stays id news x)
    (hlist : (s.kind x).isStatementList = false) (hc : c ∈ s.children x)
    (hattached : s'.Within (heir id news c) s'.root) (hy : s'.Within y (heir id news c))
    (hlt : y < s.size) : s.Within y c := by
  have hlink := h.base.parent?_of_mem hc
  have hin := h.within_of_within hattached hy hlt
  rw [heir] at hin
  split at hin
  case isFalse => exact hin
  case isTrue heq =>
      subst heq
      obtain ⟨n, rfl, -⟩ := h.alone x hlink hlist
      refine hin.trans (h.below n List.mem_cons_self ?_).1
      exact h.base.within_lt hlt hin

end Cuts

end ScriptMin.Store
