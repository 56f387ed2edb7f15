import ScriptMin.Pass.Privates
import ScriptMin.Proofs.Pass.Following
import ScriptMin.Proofs.Text.Short

/-!
Replacement of private names. It is all or nothing: a tree is refused and stays as it is, or all its
private names are replaced. A replacement is private itself, so that it cannot meet a name that is
left alone, and it tells the names apart whose digests start differently. Nothing is assumed of the
digest: two names whose digests start alike are refused.
-/

namespace ScriptMin

open Store

variable {s : Store} {id : NodeId} {digest : Digest.Method} {context name : String}

namespace Privates

/-! ### Private names -/

theorem isPrivateChar_of_mem_compactDigits :
    ∀ c ∈ Text.compactDigits, isPrivateChar c = true :=
  List.all_eq_true.mp (by decide : Text.compactDigits.all isPrivateChar = true)

/-- A replacement is private itself. -/
theorem isPrivate_replacementBy (name : String) :
    isPrivate (replacementBy digest context name) = true := by
  have hchars : (replacementBy digest context name).toList = '_' :: '_' ::
      (Text.compactNumeral (Digest.wordBy digest (context ++ "." ++ name))).toList := by
    rw [replacementBy, String.toList_append]
    rfl
  simp only [isPrivate, hchars, Bool.and_eq_true, List.all_eq_true, Bool.not_eq_true',
    List.isEmpty_eq_false_iff]
  refine ⟨Text.compactNumeral_ne_nil _, fun c hc => ?_⟩
  exact isPrivateChar_of_mem_compactDigits c (Text.mem_compactDigits_of_mem_compactNumeral hc)

/-- Two names have the same replacement exactly if their digests start alike. -/
theorem replacementBy_eq_iff {first second : String} :
    replacementBy digest context first = replacementBy digest context second ↔
      Digest.wordBy digest (context ++ "." ++ first) =
        Digest.wordBy digest (context ++ "." ++ second) := by
  rw [replacementBy, replacementBy, String.append_right_inj]
  exact Text.compactNumeral_injective.eq_iff

/-- A node of the tree carries a private name. -/
structure Carries (s : Store) (id : NodeId) (name : String) : Prop where
  reached : id ∈ s.descendants s.root
  kind : s.kind id = .identifier ∨ s.kind id = .declaration ∨ s.kind id = .function
  text : s.text? id = some name
  isPrivate : isPrivate name = true

theorem privateName?_eq_some : privateName? s id = some name ↔
    (s.kind id = .identifier ∨ s.kind id = .declaration ∨ s.kind id = .function) ∧
      s.text? id = some name ∧ isPrivate name = true := by
  rw [privateName?]
  split
  case h_4 hidentifier hdeclaration hfunction =>
      refine ⟨nofun, ?_⟩
      rintro ⟨hkind | hkind | hkind, -⟩
      · exact absurd hkind hidentifier
      · exact absurd hkind hdeclaration
      · exact absurd hkind hfunction
  all_goals
    rename_i hkind
    rw [Option.filter_eq_some_iff, hkind]
    simp

theorem mem_members : (id, name) ∈ members s ↔ Carries s id name := by
  rw [members, List.mem_filterMap]
  constructor
  · rintro ⟨x, hx, hname⟩
    obtain ⟨other, hother, heq⟩ := Option.map_eq_some_iff.mp hname
    obtain ⟨rfl, rfl⟩ := Prod.mk.inj heq
    obtain ⟨hkind, htext, hprivate⟩ := privateName?_eq_some.mp hother
    exact ⟨hx, hkind, htext, hprivate⟩
  · intro h
    refine ⟨id, h.reached, ?_⟩
    rw [privateName?_eq_some.mpr ⟨h.kind, h.text, h.isPrivate⟩]
    rfl

theorem Carries.lt (h : Carries s id name) : id < s.size := by
  by_contra hid
  have htext := h.text
  rw [text?, head, node_of_size_le (Nat.le_of_not_lt hid)] at htext
  cases htext

theorem Carries.name_eq {other : String} (h : Carries s id name) (h' : Carries s id other) :
    name = other :=
  Option.some_inj.mp (h.text.symm.trans h'.text)

/-! ### Collecting replacements -/

/-- Two of the given names are different, but their replacements are not. -/
def Clash (digest : Digest.Method) (context : String) (names : List String) : Prop :=
  ∃ first ∈ names, ∃ second ∈ names, first ≠ second ∧
    replacementBy digest context first = replacementBy digest context second

theorem Clash.mono {names names' : List String} (h : Clash digest context names)
    (hsub : names ⊆ names') : Clash digest context names' := by
  obtain ⟨first, hfirst, second, hsecond, hclash⟩ := h
  exact ⟨first, hsub hfirst, second, hsub hsecond, hclash⟩

/-- Names are collected with their replacements, and there is no clash among them. -/
structure Collected (digest : Digest.Method) (context : String) (found : Replacements) : Prop where
  replaced : ∀ member ∈ found, member.2 = replacementBy digest context member.1
  apart : ¬ Clash digest context (found.map Prod.fst)

theorem Collected.nil : Collected digest context [] where
  replaced := nofun
  apart := by rintro ⟨_, hfirst, -⟩; cases hfirst

theorem Collected.lookup {found : Replacements} (h : Collected digest context found)
    (hname : name ∈ found.map Prod.fst) :
    found.lookup name = some (replacementBy digest context name) := by
  cases hlookup : found.lookup name with
  | none =>
      obtain ⟨member, hmember, rfl⟩ := List.mem_map.mp hname
      exact absurd rfl (bne_iff_ne.mp (List.lookup_eq_none_iff.mp hlookup member hmember))
  | some new =>
      obtain ⟨before, behind, rfl, -⟩ := List.lookup_eq_some_iff.mp hlookup
      exact congrArg some (h.replaced _ (List.mem_append_right _ List.mem_cons_self))

/-- What adding the replacement of a name comes down to. -/
theorem gives_addReplacement_run {found : Replacements} (h : Collected digest context found)
    (member : NodeId × String) :
    Edit.Gives (addReplacement digest context found member).run s fun result s' => s' = s ∧
      match result with
      | .ok found' => Collected digest context found' ∧
          ∀ name, name ∈ found'.map Prod.fst ↔ name ∈ found.map Prod.fst ∨ name = member.2
      | .error _ => Clash digest context (found.map Prod.fst ++ [member.2]) := by
  obtain ⟨id, name⟩ := member
  by_cases hknown : (found.lookup name).isSome
  · have hrun : addReplacement digest context found (id, name) = pure found := if_pos hknown
    rw [hrun]
    refine ⟨rfl, h, fun other => ⟨.inl, ?_⟩⟩
    rintro (hmem | rfl)
    · exact hmem
    · obtain ⟨new, hnew⟩ := Option.isSome_iff_exists.mp hknown
      obtain ⟨before, behind, rfl, -⟩ := List.lookup_eq_some_iff.mp hnew
      simp
  · have hnew : name ∉ found.map Prod.fst := fun hmem => hknown (by rw [h.lookup hmem]; rfl)
    rw [addReplacement]
    dsimp only
    rw [if_neg hknown]
    split
    case h_1 first other hfind =>
        have hmem := List.mem_of_find?_eq_some hfind
        have hsame : other = replacementBy digest context name := by
          simpa using List.find?_some hfind
        have hfirst : first ∈ found.map Prod.fst := List.mem_map_of_mem (f := Prod.fst) hmem
        refine ⟨rfl, first, List.mem_append_left _ hfirst, name, by simp, ?_, ?_⟩
        · rintro rfl
          exact hnew hfirst
        · rw [← h.replaced _ hmem]
          exact hsame
    case h_2 hfind =>
        have hfree : ∀ taken ∈ found.map Prod.fst,
            replacementBy digest context taken ≠ replacementBy digest context name := by
          intro taken htaken
          obtain ⟨member, hmember, rfl⟩ := List.mem_map.mp htaken
          rw [← h.replaced member hmember]
          simpa using List.find?_eq_none.mp hfind member hmember
        refine ⟨rfl, ⟨?_, ?_⟩, by simp⟩
        · intro member hmember
          rcases List.mem_append.mp hmember with hold | hlast
          · exact h.replaced member hold
          · rw [List.mem_singleton.mp hlast]
        · simp only [List.map_append, List.map_cons, List.map_nil]
          rintro ⟨first, hfirst, second, hsecond, hne, hsame⟩
          rcases List.mem_append.mp hfirst with hfirst | hfirst <;>
            rcases List.mem_append.mp hsecond with hsecond | hsecond
          · exact h.apart ⟨first, hfirst, second, hsecond, hne, hsame⟩
          · exact hfree first hfirst (List.mem_singleton.mp hsecond ▸ hsame)
          · exact hfree second hsecond (List.mem_singleton.mp hfirst ▸ hsame.symm)
          · exact hne ((List.mem_singleton.mp hfirst).trans (List.mem_singleton.mp hsecond).symm)

/-- Replacements are found for all names, unless two of the names clash. -/
theorem gives_foldlM_addReplacement (items : List (NodeId × String)) {found : Replacements}
    (h : Collected digest context found) :
    Edit.Gives (items.foldlM (addReplacement digest context) found).run s fun result s' => s' = s ∧
      match result with
      | .ok found' => Collected digest context found' ∧
          ∀ name, name ∈ found'.map Prod.fst ↔
            name ∈ found.map Prod.fst ∨ name ∈ items.map Prod.snd
      | .error _ => Clash digest context (found.map Prod.fst ++ items.map Prod.snd) := by
  induction items generalizing found with
  | nil => exact ⟨rfl, h, by simp⟩
  | cons item rest ih =>
      rw [List.foldlM_cons, ExceptT.run_bind, Edit.gives_bind]
      refine (gives_addReplacement_run h item).mono fun result s' hstep => ?_
      obtain ⟨rfl, hstep⟩ := hstep
      cases result with
      | error fault =>
          refine ⟨rfl, hstep.mono (List.append_subset.mpr ⟨List.subset_append_left _ _, ?_⟩)⟩
          simp
      | ok found' =>
          obtain ⟨hfound', hnames⟩ := hstep
          refine (ih hfound').mono fun result s'' hrest => ?_
          obtain ⟨rfl, hrest⟩ := hrest
          refine ⟨rfl, ?_⟩
          cases result with
          | error fault =>
              refine hrest.mono fun name hname => ?_
              rw [List.mem_append, hnames] at hname
              simp only [List.map_cons, List.mem_append, List.mem_cons]
              exact or_assoc.mp hname
          | ok all =>
              refine ⟨hrest.1, fun name => ?_⟩
              rw [hrest.2, hnames, List.map_cons, List.mem_cons, or_assoc]

end Privates

/-! ### Setting texts -/

def Node.withText (n : Node) (text : String) : Node :=
  { n with head := { n.head with payload := .text text } }

theorem Store.node_setText {other : NodeId} {text : String} (hid : id < s.size) :
    (s.setText id text).node other =
      if other = id then (s.node other).withText text else s.node other := by
  rw [setText, setPayload, modifyHead, node_modifyNode]
  simp only [hid, and_true]
  rfl

/-- Where the nodes of a list get texts that depend on the nodes alone, all of them have their texts
in the end, and other nodes are as before. -/
theorem Store.node_foldl_setText {items : List (NodeId × String)} (id : NodeId)
    (text : NodeId × String → String) (hlt : ∀ item ∈ items, item.1 < s.size) :
    (items.foldl (fun s item => s.setText item.1 (text item)) s).size = s.size ∧
    (items.foldl (fun s item => s.setText item.1 (text item)) s).chosenRoot = s.chosenRoot ∧
    (id ∉ items.map Prod.fst →
      (items.foldl (fun s item => s.setText item.1 (text item)) s).node id = s.node id) ∧
    ∀ new, id ∈ items.map Prod.fst → (∀ item ∈ items, item.1 = id → text item = new) →
      (items.foldl (fun s item => s.setText item.1 (text item)) s).node id =
        (s.node id).withText new := by
  induction items generalizing s with
  | nil => exact ⟨rfl, rfl, fun _ => rfl, fun _ hid => absurd hid List.not_mem_nil⟩
  | cons item rest ih =>
      have hitem := hlt item List.mem_cons_self
      have hsize : (s.setText item.1 (text item)).size = s.size := size_modifyHead _
      obtain ⟨hsize', hroot, hother, hnew⟩ := ih (s := s.setText item.1 (text item))
        fun x hx => hsize ▸ hlt x (List.mem_cons_of_mem _ hx)
      rw [List.foldl_cons]
      refine ⟨hsize'.trans hsize, hroot, fun hid => ?_, fun new hid htext => ?_⟩
      · rw [List.map_cons, List.mem_cons, not_or] at hid
        rw [hother hid.2, node_setText hitem, if_neg hid.1]
      · have hrest := fun x hx => htext x (List.mem_cons_of_mem _ hx)
        by_cases hlater : id ∈ rest.map Prod.fst
        · rw [hnew new hlater hrest, node_setText hitem]
          split <;> rfl
        · obtain rfl : id = item.1 := (List.mem_cons.mp hid).resolve_right hlater
          rw [hother hlater, node_setText hitem, if_pos rfl, htext item List.mem_cons_self rfl]

/-! ### The replacement of private names -/

namespace Privates

/-- A private name stands for a variable, or the digests of two different private names of members
start alike. -/
def Obstructed (digest : Digest.Method) (context : String) (s : Store) : Prop :=
  (∃ id name, Carries s id name ∧ isMember s id = false) ∨
    ∃ id first other second, Carries s id first ∧ isMember s id = true ∧
      Carries s other second ∧ isMember s other = true ∧ first ≠ second ∧
      Digest.wordBy digest (context ++ "." ++ first) =
        Digest.wordBy digest (context ++ "." ++ second)

/-- Another store has the same nodes, but for the private names, which are replaced. Names of members
are equal in it if they have been equal, and only then. -/
structure Replaced (digest : Digest.Method) (context : String) (s s' : Store) : Prop where
  size_eq : s'.size = s.size
  chosenRoot_eq : s'.chosenRoot = s.chosenRoot
  replaced : ∀ id name, Carries s id name →
    s'.node id = (s.node id).withText (replacementBy digest context name)
  kept : ∀ id, (∀ name, ¬ Carries s id name) → s'.node id = s.node id
  equal_iff : ∀ id ∈ s.descendants s.root, ∀ other ∈ s.descendants s.root,
    isMember s id = true → isMember s other = true →
      (s'.text? id = s'.text? other ↔ s.text? id = s.text? other)

/-- A private name of members stays apart from the names that are kept. -/
theorem text?_ne_of_kept {other : NodeId} (hother : other ∈ s.descendants s.root)
    (hmember : isMember s other = true) (hkept : ∀ name, ¬ Carries s other name)
    (hname : isPrivate name = true) : s.text? other ≠ some name := by
  intro htext
  refine hkept name ⟨hother, ?_, htext, hname⟩
  rw [isMember] at hmember
  split at hmember
  · exact .inl ‹_›
  · exact .inr (.inr ‹_›)
  · cases hmember

theorem equal_iff_of_replaced {s' : Store}
    (hreplaced : ∀ id name, Carries s id name →
      s'.text? id = some (replacementBy digest context name))
    (hkept : ∀ id, (∀ name, ¬ Carries s id name) → s'.text? id = s.text? id)
    (hclash : ∀ id first other second, Carries s id first → Carries s other second →
      replacementBy digest context first = replacementBy digest context second → first = second)
    {other : NodeId} (hid : id ∈ s.descendants s.root) (hother : other ∈ s.descendants s.root)
    (hidMember : isMember s id = true) (hotherMember : isMember s other = true) :
    s'.text? id = s'.text? other ↔ s.text? id = s.text? other := by
  by_cases hfirst : ∃ name, Carries s id name <;> by_cases hsecond : ∃ name, Carries s other name
  · obtain ⟨first, hfirst⟩ := hfirst
    obtain ⟨second, hsecond⟩ := hsecond
    rw [hreplaced id first hfirst, hreplaced other second hsecond, hfirst.text, hsecond.text,
      Option.some_inj, Option.some_inj]
    exact ⟨hclash id first other second hfirst hsecond, fun heq => heq ▸ rfl⟩
  · obtain ⟨first, hfirst⟩ := hfirst
    have hnone := not_exists.mp hsecond
    rw [hreplaced id first hfirst, hkept other hnone, hfirst.text]
    refine iff_of_false (fun heq => ?_) fun heq => ?_
    · exact text?_ne_of_kept hother hotherMember hnone (isPrivate_replacementBy first) heq.symm
    · exact text?_ne_of_kept hother hotherMember hnone hfirst.isPrivate heq.symm
  · obtain ⟨second, hsecond⟩ := hsecond
    have hnone := not_exists.mp hfirst
    rw [hreplaced other second hsecond, hkept id hnone, hsecond.text]
    refine iff_of_false (fun heq => ?_) fun heq => ?_
    · exact text?_ne_of_kept hid hidMember hnone (isPrivate_replacementBy second) heq
    · exact text?_ne_of_kept hid hidMember hnone hsecond.isPrivate heq
  · rw [hkept id (not_exists.mp hfirst), hkept other (not_exists.mp hsecond)]

/-- Setting the texts of all members to the replacements that have been collected replaces the
private names. -/
theorem replaced_foldl_setText {found : Replacements} (hfound : Collected digest context found)
    (hnames : ∀ name, name ∈ found.map Prod.fst ↔ name ∈ (members s).map Prod.snd) :
    Replaced digest context s ((members s).foldl
      (fun s (id, name) => s.setText id ((found.lookup name).getD name)) s) := by
  have hlookup : ∀ {id name}, Carries s id name →
      (found.lookup name).getD name = replacementBy digest context name := by
    intro id name h
    rw [hfound.lookup ((hnames name).mpr (List.mem_map_of_mem (mem_members.mpr h)))]
    rfl
  have hlt : ∀ item ∈ members s, item.1 < s.size := fun item hitem => (mem_members.mp hitem).lt
  have hnode := fun id =>
    node_foldl_setText id (fun item : NodeId × String => (found.lookup item.2).getD item.2) hlt
  have hreplaced : ∀ id name, Carries s id name → ((members s).foldl (fun s (id, name) =>
      s.setText id ((found.lookup name).getD name)) s).node id =
        (s.node id).withText (replacementBy digest context name) := by
    intro id name h
    refine (hnode id).2.2.2 _ (List.mem_map_of_mem (f := Prod.fst) (mem_members.mpr h)) ?_
    rintro ⟨x, other⟩ hitem rfl
    obtain rfl := h.name_eq (mem_members.mp hitem)
    exact hlookup h
  have hkept : ∀ id, (∀ name, ¬ Carries s id name) → ((members s).foldl (fun s (id, name) =>
      s.setText id ((found.lookup name).getD name)) s).node id = s.node id := by
    intro id h
    refine (hnode id).2.2.1 fun hmem => ?_
    obtain ⟨⟨x, name⟩, hitem, rfl⟩ := List.mem_map.mp hmem
    exact h name (mem_members.mp hitem)
  refine ⟨(hnode s.root).1, (hnode s.root).2.1, hreplaced, hkept, ?_⟩
  intro id hid other hother hidMember hotherMember
  have hclash : ∀ id first other second, Carries s id first → Carries s other second →
      replacementBy digest context first = replacementBy digest context second →
        first = second := by
    intro id first other second hfirst hsecond hsame
    by_contra hne
    refine hfound.apart ⟨first, ?_, second, ?_, hne, hsame⟩
    · exact (hnames first).mpr (List.mem_map_of_mem (mem_members.mpr hfirst))
    · exact (hnames second).mpr (List.mem_map_of_mem (mem_members.mpr hsecond))
  refine equal_iff_of_replaced (fun id name h => ?_) (fun id h => ?_) hclash hid hother hidMember
    hotherMember
  · rw [text?, head, hreplaced id name h]
    rfl
  · rw [text?, head, hkept id h]
    rfl

end Privates

open Privates

theorem gives_run_get_bind {f : Store → Pass Bool} {Q : Except PassFault Bool → Store → Prop} :
    Edit.Gives (get >>= f : Pass Bool).run s Q ↔ Edit.Gives (f s).run s Q := Iff.rfl

/-- The replacement ends with a refusal of the tree as it is, or with all private names replaced. -/
theorem gives_replacePrivatesBy (digest : Digest.Method) (context : String) (s : Store) :
    Edit.Gives (replacePrivatesBy digest context).run s fun result s' =>
      match result with
      | .error _ => Obstructed digest context s ∧ s' = s
      | .ok _ => ¬ Obstructed digest context s ∧ Replaced digest context s s' := by
  rw [replacePrivatesBy, gives_run_get_bind]
  dsimp only
  cases hfind : (members s).find? fun (id, _) => !isMember s id with
  | some member =>
      obtain ⟨id, name⟩ := member
      refine ⟨.inl ⟨id, name, mem_members.mp (List.mem_of_find?_eq_some hfind), ?_⟩, rfl⟩
      simpa using List.find?_some hfind
  | none =>
      have hmembers : ∀ {id name}, Carries s id name → isMember s id = true := by
        intro id name h
        simpa using List.find?_eq_none.mp hfind (id, name) (mem_members.mpr h)
      rw [ExceptT.run_bind, Edit.gives_bind]
      refine (gives_foldlM_addReplacement (members s) Collected.nil).mono fun result s' hstep => ?_
      obtain ⟨rfl, hstep⟩ := hstep
      cases result with
      | error fault =>
          obtain ⟨first, hfirst, second, hsecond, hne, hsame⟩ := hstep
          obtain ⟨⟨id, _⟩, hid, rfl⟩ := List.mem_map.mp hfirst
          obtain ⟨⟨other, _⟩, hother, rfl⟩ := List.mem_map.mp hsecond
          refine ⟨.inr ⟨id, _, other, _, mem_members.mp hid, hmembers (mem_members.mp hid),
            mem_members.mp hother, hmembers (mem_members.mp hother), hne, ?_⟩, rfl⟩
          exact replacementBy_eq_iff.mp hsame
      | ok found =>
          obtain ⟨hfound, hnames⟩ := hstep
          refine ⟨?_, replaced_foldl_setText hfound fun name => ?_⟩
          · rintro (⟨id, name, hcarries, hvariable⟩ |
              ⟨id, first, other, second, hfirst, -, hsecond, -, hne, hword⟩)
            · rw [hmembers hcarries] at hvariable
              cases hvariable
            · refine hfound.apart ⟨first, ?_, second, ?_, hne, replacementBy_eq_iff.mpr hword⟩
              · exact (hnames first).mpr (.inr (List.mem_map_of_mem (mem_members.mpr hfirst)))
              · exact (hnames second).mpr (.inr (List.mem_map_of_mem (mem_members.mpr hsecond)))
          · rw [hnames]
            simp

/-- Private names are replaced all or none, whatever the digest is. The replacement fails exactly if
a private name stands for a variable or the digests of two different private names of members start
alike, and then the tree stays as it is. Else every private name becomes its replacement, all else
stays, and names of members are equal if and only if they have been. -/
theorem replacePrivatesBy_allOrNothing (digest : Digest.Method) (context : String) (s : Store) :
    let outcome := (replacePrivatesBy digest context).run.run s
    ((∃ fault, outcome.1 = .error fault) ↔ Obstructed digest context s) ∧
    ((∃ fault, outcome.1 = .error fault) → outcome.2 = s) ∧
    ∀ changed, outcome.1 = .ok changed → Replaced digest context s outcome.2 := by
  intro outcome
  have hgives : match outcome.1 with
      | .error _ => Obstructed digest context s ∧ outcome.2 = s
      | .ok _ => ¬ Obstructed digest context s ∧ Replaced digest context s outcome.2 :=
    gives_replacePrivatesBy digest context s
  clear_value outcome
  obtain ⟨result, s'⟩ := outcome
  cases result with
  | error fault =>
      refine ⟨iff_of_true ⟨fault, rfl⟩ hgives.1, fun _ => hgives.2, fun changed hok => ?_⟩
      cases hok
  | ok changed =>
      have hnone : ¬ ∃ fault, (Except.ok changed : Except PassFault Bool) = .error fault := by
        rintro ⟨fault, herror⟩
        cases herror
      exact ⟨iff_of_false hnone hgives.1, fun h => absurd h hnone, fun _ _ => hgives.2⟩

end ScriptMin
