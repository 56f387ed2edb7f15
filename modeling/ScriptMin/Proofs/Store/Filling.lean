import ScriptMin.Proofs.Store.Graft
import ScriptMin.Proofs.Store.Growing

/-!
Conditional expressions keep their parts, declarations keep their names, and iterators of loops stay
out of lists of statements. Edits take nodes away from statements and lists, and put something where a
node has been; the condition and the values of a conditional expression are never taken away from it
while it has a place in the tree, and no more are patterns from declarations.
-/

namespace ScriptMin

/-- Whether nodes of the kind need what is below them. -/
@[simp] def Kind.isFirm : Kind → Bool
  | .conditional | .declaration | .varList => true
  | _ => false

theorem Kind.ne_of_not_isFirm {kind : Kind} (h : kind.isFirm = false) :
    kind ≠ .conditional ∧ kind ≠ .declaration ∧ kind ≠ .varList := by
  cases kind <;> simp at h ⊢

namespace Store

variable {s s' s'' : Store} {x p id parent child old new source target : NodeId} {ids : List NodeId}
  {f : List NodeId → List NodeId}

/-- A declaration has a text for its name, or a pattern of names. -/
structure Named (s : Store) (d : NodeId) : Prop where
  kind_eq : s.kind d = .declaration
  title : (s.text? d).isSome ∨ ∃ c ∈ s.children d, s.role? c ≠ some .initializer

/-- If a node is a conditional expression, it has a condition and two values, and if it is a list of
declarations, they have names. -/
structure Filled (s : Store) (x : NodeId) : Prop where
  parts : s.kind x = .conditional → 3 ≤ (s.children x).length
  named : s.kind x = .varList → ∀ d ∈ s.children x, s.Named d

/-- A node is below nothing that needs it. -/
def Spare (s : Store) (x : NodeId) : Prop :=
  ∀ p, s.parent? x = some p → (s.kind p).isFirm = false

/-- A node that can be put somewhere else: nothing loses it that needs it, and it has its own
parts. -/
structure Handy (s : Store) (x : NodeId) : Prop where
  lt : x < s.size
  ne_root : x ≠ s.root
  spare : s.Spare x
  filled : s.Filled x

/-- A node is not the iterator of a loop. Expression statements may still have the role of what they
have replaced. -/
def Unlooped (s : Store) (x : NodeId) : Prop := s.kind x ≠ .semicolon → s.role? x ≠ some .iterator

/-- If a node comes into a list of statements, it is not the iterator of a loop. -/
def Joins (s : Store) (x p : NodeId) : Prop := (s.kind p).isStatementList → s.Unlooped x

/-- Conditional expressions that have a place have their parts, declarations in lists that have one
have names, and no statement of a list is the iterator of a loop. -/
structure Ample (s : Store) : Prop extends s.Linked where
  root_kind : s.kind s.root = .script
  filled : ∀ {x p}, s.parent? x = some p → s.Filled x
  listed : ∀ {x p}, s.parent? x = some p → s.Joins x p

variable {M M' : Set NodeId}

/-- Everything has what it needs after an edit, and what can be moved still can, unless it has got
its place. -/
structure Fills (M : Set NodeId) (s s' : Store) : Prop where
  ample : s'.Ample
  size_le : s.size ≤ s'.size
  root_eq : s'.root = s.root
  kind_eq : ∀ x < s.size, s'.kind x = s.kind x
  spare : ∀ x < s.size, x ∉ M → s.Spare x → s'.Spare x
  filled : ∀ x < s.size, s.Filled x → s'.Filled x

namespace Fills

theorem refl (h : s.Ample) : Fills M s s :=
  ⟨h, Nat.le_refl _, rfl, fun _ _ => rfl, fun _ _ _ hx => hx, fun _ _ hx => hx⟩

theorem trans (h : Fills M s s') (h' : Fills M s' s'') : Fills M s s'' where
  ample := h'.ample
  size_le := h.size_le.trans h'.size_le
  root_eq := h'.root_eq.trans h.root_eq
  kind_eq x hx := (h'.kind_eq x (hx.trans_le h.size_le)).trans (h.kind_eq x hx)
  spare x hx hM hspare := h'.spare x (hx.trans_le h.size_le) hM (h.spare x hx hM hspare)
  filled x hx hfilled := h'.filled x (hx.trans_le h.size_le) (h.filled x hx hfilled)

theorem mono (h : Fills M s s') (hM : M ⊆ M') : Fills M' s s' :=
  { h with spare := fun x hx hnot => h.spare x hx fun hmem => hnot (hM hmem) }

theorem lt (h : Fills M s s') (hx : x < s.size) : x < s'.size := hx.trans_le h.size_le

end Fills

theorem Handy.of_fills (h : s.Handy x) (hs : Fills M s s') (hM : x ∉ M) : s'.Handy x where
  lt := hs.lt h.lt
  ne_root := by rw [hs.root_eq]; exact h.ne_root
  spare := hs.spare x h.lt hM h.spare
  filled := hs.filled x h.lt h.filled

/-- Where no node gets its place, all that can be moved still can. -/
theorem Handy.of_fills_empty (h : s.Handy x) (hs : Fills ∅ s s') : s'.Handy x :=
  h.of_fills hs (Set.notMem_empty x)

theorem Fills.weaken (h : Fills ∅ s s') : Fills M s s' := h.mono (Set.empty_subset M)

theorem filled_of_kind (hkind : s.kind x ≠ .conditional ∧ s.kind x ≠ .varList) : s.Filled x :=
  ⟨fun h => absurd h hkind.1, fun h => absurd h hkind.2⟩

theorem joins_of_kind (hkind : (s.kind p).isStatementList = false) : s.Joins x p := by
  intro h
  rw [hkind] at h
  cases h

theorem Unlooped.of_head (h : s.Unlooped x) (hhead : s'.head x = s.head x) : s'.Unlooped x := by
  rw [Unlooped, kind, role?, hhead]
  exact h

theorem unlooped_of_role (hrole : s.role? x ≠ some .iterator) : s.Unlooped x := fun _ => hrole

theorem spare_of_parent (hparent : s.parent? x = none) : s.Spare x := by
  intro p hp
  rw [hparent] at hp
  cases hp

/-- A child of a node that does not need it can be moved. -/
theorem Ample.handy_of_mem (h : s.Ample) (hc : child ∈ s.children id)
    (hkind : (s.kind id).isFirm = false) : s.Handy child := by
  have hlink := h.parent?_of_mem hc
  refine ⟨parent?_lt hlink, h.ne_root hlink, fun q hq => ?_, h.filled hlink⟩
  rw [hlink, Option.some_inj] at hq
  exact hq ▸ hkind

theorem Ample.ne_root_of_kind (h : s.Ample) (hkind : s.kind x ≠ .script) : x ≠ s.root := by
  rintro rfl
  exact hkind h.root_kind

/-- A declaration has a name in a tree if it has one in the store that shows the tree. -/
theorem Shows.named_iff {t : Tree} (h : s.Shows x t) : t.Named ↔ s.Named x := by
  have hrow := showsList_iff.mp h.children
  have hpart : (∃ c ∈ t.children, c.head.role ≠ some .initializer) ↔
      ∃ c ∈ s.children x, s.role? c ≠ some .initializer := by
    constructor
    · rintro ⟨c, hc, hrole⟩
      obtain ⟨i, hi, rfl⟩ := List.getElem_of_mem hc
      have hshows := hrow.get (hrow.length_eq ▸ hi) hi
      rw [List.get_eq_getElem, List.get_eq_getElem] at hshows
      exact ⟨_, List.getElem_mem _, by rwa [role?, hshows.head_eq]⟩
    · rintro ⟨c, hc, hrole⟩
      obtain ⟨i, hi, rfl⟩ := List.getElem_of_mem hc
      have hshows := hrow.get hi (hrow.length_eq ▸ hi)
      rw [List.get_eq_getElem, List.get_eq_getElem] at hshows
      rw [role?, hshows.head_eq] at hrole
      exact ⟨_, List.getElem_mem _, hrole⟩
  constructor
  · rintro ⟨hkind, htitle⟩
    exact ⟨by rw [kind, h.head_eq]; exact hkind,
      by rw [text?, h.head_eq]; exact htitle.imp id hpart.mp⟩
  · rintro ⟨hkind, htitle⟩
    rw [kind, h.head_eq] at hkind
    rw [text?, h.head_eq] at htitle
    exact ⟨hkind, htitle.imp id hpart.mpr⟩

/-- Everything in a tree has its parts. -/
theorem Ample.full_viewFrom (h : s.Ample) (hs : s.Forest) {depth : Nat} (hx : s.Filled x)
    (hdepth : s.size ≤ s.lineLength x + depth) : (s.viewFrom depth x).Full := by
  induction depth generalizing x with
  | zero =>
      have hnone : s.children x = [] := by
        refine List.eq_nil_iff_forall_not_mem.mpr fun c hc => ?_
        have hlt := hs.lineLength_lt (hs.parent?_of_mem hc)
        have hle : s.lineLength c ≤ s.size := lineLength_le_size
        omega
      exact .node (fun hkind => absurd (hx.parts hkind) (by simp [hnone])) (fun _ => nofun)
        (fun _ => nofun) nofun
  | succ depth ih =>
      refine .node (fun hkind => ?_) (fun hkind c hc => ?_) (fun hkind c hc => ?_) fun c hc => ?_
      · rw [List.length_map]
        exact hx.parts hkind
      · obtain ⟨child, hchild, rfl⟩ := List.mem_map.mp hc
        rw [head_viewFrom]
        exact h.listed (hs.parent?_of_mem hchild) hkind
      · obtain ⟨child, hchild, rfl⟩ := List.mem_map.mp hc
        have hlt := hs.lineLength_lt (hs.parent?_of_mem hchild)
        exact (hs.shows_viewFrom (by omega)).named_iff.mpr (hx.named hkind child hchild)
      · obtain ⟨child, hchild, rfl⟩ := List.mem_map.mp hc
        have hlink := hs.parent?_of_mem hchild
        have hlt := hs.lineLength_lt hlink
        exact ih (h.filled hlink) (by omega)

theorem Ample.full_view (h : s.Ample) (hs : s.Forest) (hx : s.Filled x) : (s.view x).Full :=
  h.full_viewFrom hs hx (Nat.le_add_left _ _)

/-! ### Links -/

/-- A declaration keeps its name if it keeps its text and something stands where its pattern was. -/
theorem Named.of_links (h : s.Named x) (hs : s.Linked) (hs' : s'.Linked)
    (hkind : s'.kind x = s.kind x) (htext : (s.text? x).isSome → (s'.text? x).isSome)
    (hlinks : ∀ c, s.parent? c = some x → s.role? c ≠ some .initializer →
      ∃ c', s'.parent? c' = some x ∧ s'.role? c' ≠ some .initializer) : s'.Named x where
  kind_eq := hkind.trans h.kind_eq
  title := by
    refine h.title.imp htext fun ⟨c, hc, hrole⟩ => ?_
    obtain ⟨c', hlink, hrole'⟩ := hlinks c (hs.parent?_of_mem hc) hrole
    exact ⟨c', (hs'.linked x c').mpr hlink, hrole'⟩

/-- A declaration keeps its name if it keeps what is below it. -/
theorem Named.of_kept (h : s.Named x) (hs : s.Linked) (hs' : s'.Linked)
    (hhead : ∀ y < s.size, s'.head y = s.head y)
    (hlinks : ∀ c, s.parent? c = some x → s'.parent? c = some x) : s'.Named x := by
  have hx := hhead x (lt_of_kind (by simp [h.kind_eq]))
  refine h.of_links hs hs' (congrArg Head.kind hx) (by rw [text?, text?, hx]; exact fun h => h) ?_
  exact fun c hc hrole => ⟨c, hlinks c hc, by rwa [role?, hhead c (parent?_lt hc)]⟩

/-- Everything keeps what it needs if conditional expressions do not get shorter, declarations keep
their names, and every node that gets a new parent has its parts and may come there. -/
theorem fills_of_links (h : s.Ample) (hlinked : s'.Linked) (hsize : s'.size = s.size)
    (hroot : s'.root = s.root) (hkind : ∀ x, s'.kind x = s.kind x)
    (hrow : ∀ x, s.kind x = .conditional → (s.children x).length ≤ (s'.children x).length)
    (hnamed : ∀ x, s.Named x → s'.Named x)
    (hlinks : ∀ x p, s'.parent? x = some p →
      s.parent? x = some p ∧ (s'.role? x = some .iterator → s.role? x = some .iterator) ∨
        s.Filled x ∧ s'.Joins x p ∧ (s.kind p = .varList → s.Filled p → s.Named x) ∧
          (s.Spare x → (s.kind p).isFirm = false ∨ x ∈ M)) : Fills M s s' := by
  have hfilled : ∀ x, s.Filled x → s'.Filled x := by
    refine fun x hx => ⟨fun hcase => ?_, fun hcase d hd => hnamed d ?_⟩
    · rw [hkind] at hcase
      exact (hx.parts hcase).trans (hrow x hcase)
    · rw [hkind] at hcase
      rcases hlinks d x (hlinked.parent?_of_mem hd) with hold | hnew
      · exact hx.named hcase d ((h.linked x d).mpr hold.1)
      · exact hnew.2.2.1 hcase hx
  refine ⟨⟨hlinked, by rw [hroot, hkind, h.root_kind], fun {x p} hp => ?_, fun {x p} hp => ?_⟩,
    hsize.ge, hroot, fun x _ => hkind x, fun x _ hM hx p hp => ?_, fun x _ => hfilled x⟩
  · rcases hlinks x p hp with hold | hnew
    · exact hfilled x (h.filled hold.1)
    · exact hfilled x hnew.1
  · rcases hlinks x p hp with hold | hnew
    · rw [Joins, Unlooped, hkind, hkind]
      exact fun hlist hx hrole => h.listed hold.1 hlist hx (hold.2 hrole)
    · exact hnew.2.1
  · rw [hkind]
    rcases hlinks x p hp with hold | hnew
    · exact hx p hold.1
    · exact (hnew.2.2.2 hx).resolve_right hM

theorem fills_modifyHead (h : s.Ample) {g : Head → Head} (hg : ∀ head, (g head).kind = head.kind)
    (htext : ∀ head, head.text?.isSome → (g head).text?.isSome)
    (hrole : ∀ head, (g head).role = head.role ∨ (g head).role ≠ some .iterator ∧
      (g head).role ≠ some .initializer) : Fills M s (s.modifyHead id g) := by
  have hkind : ∀ x, (s.modifyHead id g).kind x = s.kind x := by
    intro x
    rw [kind, head_modifyHead]
    split
    · exact hg _
    · rfl
  have hroles : ∀ {x role}, role = .iterator ∨ role = .initializer →
      (s.modifyHead id g).role? x = some role → s.role? x = some role := by
    intro x role hcase
    rw [role?, head_modifyHead]
    split
    · rcases hrole (s.head x) with hsame | ⟨hiterator, hinitializer⟩
      · rw [hsame]
        exact fun heq => heq
      · rcases hcase with rfl | rfl
        · exact fun heq => absurd heq hiterator
        · exact fun heq => absurd heq hinitializer
    · exact fun heq => heq
  refine fills_of_links h (h.modifyHead g) (size_modifyHead _) rfl hkind (fun x _ => ?_)
    (fun x hx => ?_) fun x p hp => .inl ⟨?_, hroles (.inl rfl)⟩
  · rw [children_modifyHead]
  · refine hx.of_links h.toLinked (h.modifyHead g) (hkind x) (fun htitle => ?_) fun c hc hnot =>
      ⟨c, by rwa [parent?_modifyHead], fun heq => hnot (hroles (.inr rfl) heq)⟩
    rw [text?, head_modifyHead]
    split
    · exact htext _ htitle
    · exact htitle
  · rwa [parent?_modifyHead] at hp

theorem fills_setRole (h : s.Ample) (id : NodeId) {role : Option Role}
    (hrole : role ≠ some .iterator ∧ role ≠ some .initializer) : Fills M s (s.setRole id role) :=
  fills_modifyHead h (fun _ => rfl) (fun _ htext => htext) fun _ => .inr hrole

theorem fills_dropRole (h : s.Ample) (id : NodeId) : Fills M s (s.setRole id none) :=
  fills_setRole h id (by simp)

theorem Unlooped.setRole (h : s.Unlooped x) (id : NodeId) {role : Option Role}
    (hrole : role ≠ some .iterator) : (s.setRole id role).Unlooped x := by
  rw [Unlooped, Store.setRole, kind, role?, head_modifyHead]
  split
  · exact fun _ => hrole
  · exact h

theorem fills_setText (h : s.Ample) (text : String) : Fills M s (s.setText id text) := by
  rw [setText, setPayload]
  exact fills_modifyHead h (fun _ => rfl) (fun _ _ => rfl) fun _ => .inl rfl

theorem fills_scan (h : s.Ample) : Fills M s (s.scan id) := by
  rw [scan_eq]
  refine List.foldlRecOn _ _ (Fills.refl h) fun s' hs owner _ => hs.trans ?_
  have hlinked : (s'.setScope owner (some (s.view owner).scope)).Linked :=
    hs.ample.of_eq (size_setScope _) rfl (fun _ => children_setScope _)
      fun _ => parent?_setScope _
  have hhead : ∀ x, (s'.setScope owner (some (s.view owner).scope)).head x = s'.head x := fun _ =>
    head_setScope _
  refine fills_of_links hs.ample hlinked (size_setScope _) rfl (fun x => ?_) (fun x _ => ?_)
    (fun x hx => ?_) fun x p hp => .inl ⟨?_, ?_⟩
  · exact congrArg Head.kind (hhead x)
  · rw [children_setScope]
  · exact hx.of_kept hs.ample.toLinked hlinked (fun y _ => hhead y) fun c hc => by
      rwa [parent?_setScope]
  · rwa [parent?_setScope] at hp
  · rw [role?, hhead]
    exact fun heq => heq

/-! ### New nodes -/

theorem fills_add (h : s.Ample) (head : Head) : Fills M s (s.add head).2 := by
  have hhead : ∀ x < s.size, (s.add head).2.head x = s.head x := by
    intro x hx
    rw [head_add, if_neg (Nat.ne_of_lt hx)]
  have hkind : ∀ x < s.size, (s.add head).2.kind x = s.kind x := fun x hx =>
    congrArg Head.kind (hhead x hx)
  have hfilled : ∀ x < s.size, s.Filled x → (s.add head).2.Filled x := by
    refine fun x hx hfilled => ⟨fun hcase => ?_, fun hcase d hd => ?_⟩
    · rw [hkind x hx] at hcase
      rw [children_add]
      exact hfilled.parts hcase
    · rw [hkind x hx] at hcase
      rw [children_add] at hd
      exact (hfilled.named hcase d hd).of_kept h.toLinked (h.toLinked.add head) hhead
        fun c hc => by rwa [parent?_add]
  refine ⟨⟨h.toLinked.add head, (hkind _ h.root_lt).trans h.root_kind, fun {x p} hp => ?_,
    fun {x p} hp => ?_⟩, ?_, rfl, hkind, ?_, hfilled⟩
  · rw [parent?_add] at hp
    exact hfilled x (parent?_lt hp) (h.filled hp)
  · rw [parent?_add] at hp
    rw [Joins, Unlooped, hkind p (h.parent_lt hp), hkind x (parent?_lt hp), role?,
      hhead x (parent?_lt hp)]
    exact h.listed hp
  · rw [size_add]
    exact Nat.le_succ _
  · intro x _ _ hspare p hp
    rw [parent?_add] at hp
    rw [hkind p (h.parent_lt hp)]
    exact hspare p hp

/-- What is known of a node that has just been added. -/
theorem fills_of_add (h : s.Ample) {head : Head} (hadd : s.add head = (new, s')) :
    Fills M s s' ∧ new = s.size ∧ new < s'.size ∧ s'.Spare new ∧ s'.kind new = head.kind := by
  obtain rfl := new_of_add hadd
  obtain rfl : (s.add head).2 = s' := congrArg Prod.snd hadd
  refine ⟨fills_add h head, rfl, ?_, spare_of_parent ?_, ?_⟩
  · rw [size_add]
    exact Nat.lt_succ_self _
  · rw [parent?_add, parent?_of_size_le (Nat.le_refl _)]
  · rw [kind, head_add, if_pos rfl]

/-- A new node that is no conditional expression can be put anywhere. -/
theorem handy_of_add (h : s.Ample) {head : Head} (hadd : s.add head = (new, s'))
    (hkind : head.kind ≠ .conditional) : Fills M s s' ∧ s'.Handy new ∧ s'.kind new = head.kind := by
  obtain ⟨hs, hnew, hlt, hspare, hsame⟩ := fills_of_add h hadd
  have hrow : s'.children new = [] := by
    have hstore : (s.add head).2 = s' := congrArg Prod.snd hadd
    rw [← hstore, children_add, hnew, children_of_size_le (Nat.le_refl _)]
  refine ⟨hs, ⟨hlt, ?_, hspare, fun hcase => absurd (hsame.symm.trans hcase) hkind, ?_⟩, hsame⟩
  · rw [hs.root_eq, hnew]
    exact Nat.ne_of_gt h.root_lt
  · rw [hrow]
    exact fun _ => nofun

/-! ### Moving nodes -/

/-- A node that nothing loses that needs it is taken away. A list of declarations does without any of
them. -/
theorem fills_detach (h : s.Ample)
    (hchild : ∀ p, s.parent? child = some p → s.kind p ≠ .conditional ∧ s.kind p ≠ .declaration) :
    Fills M s (s.detach child) := by
  refine fills_of_links h h.toLinked.detach size_detach (congrArg (·.getD 0) chosenRoot_detach)
    (fun x => congrArg Head.kind head_detach) (fun x hx => ?_) (fun x hx => ?_)
    fun x p hp => .inl ⟨?_, ?_⟩
  · rw [children_detach, if_neg fun hlink => (hchild x hlink).1 hx]
  · refine hx.of_kept h.toLinked h.toLinked.detach (fun _ _ => head_detach) fun c hc => ?_
    rw [parent?_detach, if_neg]
    · exact hc
    · rintro ⟨rfl, -⟩
      exact (hchild x hc).2 hx.kind_eq
  · rw [parent?_detach] at hp
    split at hp
    · cases hp
    · exact hp
  · rw [role?_detach]
    exact fun heq => heq

theorem fills_removeFrom (h : s.Ample)
    (hchild : ∀ p, s.parent? child = some p → s.kind p ≠ .conditional ∧ s.kind p ≠ .declaration) :
    Fills M s (s.remove child) := by
  have hdetach := fills_detach (M := M) h hchild
  exact hdetach.trans (fills_dropRole hdetach.ample child)

theorem fills_remove (h : s.Ample) (hchild : s.Spare child) : Fills M s (s.remove child) :=
  fills_removeFrom h fun p hp => have hfirm := Kind.ne_of_not_isFirm (hchild p hp)
    ⟨hfirm.1, hfirm.2.1⟩

theorem Unlooped.remove (h : s.Unlooped x) (id : NodeId) : (s.remove id).Unlooped x :=
  (h.of_head head_detach).setRole id (by simp)

/-- A node that has been taken away is no iterator. -/
theorem unlooped_remove (hlt : x < s.size) : (s.remove x).Unlooped x := by
  refine unlooped_of_role ?_
  rw [Store.remove, Store.setRole, role?, head_modifyHead, size_detach, if_pos ⟨rfl, hlt⟩]
  simp

/-- A node that can be moved becomes a child of another one. -/
theorem fills_attach (h : s.Ample) (hparent : parent < s.size) (hchild : s.Handy child)
    (hf : ∀ ids, (f ids).Perm (child :: ids)) (hjoins : s.Joins child parent)
    (hplace : (s.kind parent).isFirm = false ∨ (s.kind parent = .varList → s.Named child) ∧ child ∈ M) :
    Fills M s (s.attach parent f child) := by
  have hlinked := h.toLinked.attach hf hparent hchild.lt hchild.ne_root
  refine fills_of_links h hlinked size_attach (congrArg (·.getD 0) chosenRoot_attach)
    (fun x => congrArg Head.kind head_attach) (fun x hx => ?_) (fun x hx => ?_) fun x p hp => ?_
  · have hrow : (s.detach child).children x = s.children x := by
      rw [children_detach, if_neg fun hlink => by simpa [hx] using hchild.spare x hlink]
    rw [children_attach hparent, hrow]
    split
    · rw [(hf _).length_eq]
      exact Nat.le_succ _
    · exact Nat.le_refl _
  · refine hx.of_kept h.toLinked hlinked (fun _ _ => head_attach) fun c hc => ?_
    rw [parent?_attach hchild.lt, if_neg]
    · exact hc
    · rintro rfl
      simpa [hx.kind_eq] using hchild.spare x hc
  · rw [parent?_attach hchild.lt] at hp
    split at hp
    case isTrue heq =>
        subst heq
        obtain rfl := Option.some_inj.mp hp
        refine .inr ⟨hchild.filled, ?_, fun hlist _ => ?_, fun _ => hplace.imp_right And.right⟩
        · rw [Joins, Unlooped, role?, kind, kind, head_attach, head_attach]
          exact hjoins
        · rcases hplace with hfirm | hnamed
          · exact absurd hlist (Kind.ne_of_not_isFirm hfirm).2.2
          · exact hnamed.1 hlist
    case isFalse => exact .inl ⟨hp, by rw [role?, head_attach]; exact fun heq => heq⟩

/-- A node that can be moved comes to the end of a row that is no list of statements. -/
theorem fills_append (h : s.Ample) (hparent : parent < s.size) (hchild : s.Handy child)
    (hlist : (s.kind parent).isStatementList = false)
    (hplace : (s.kind parent).isFirm = false ∨ (s.kind parent = .varList → s.Named child) ∧ child ∈ M) :
    Fills M s (s.append parent child) := by
  rw [append_eq]
  exact fills_attach h hparent hchild (fun ids => List.perm_append_singleton child ids)
    (joins_of_kind hlist) hplace

theorem fills_appendAs (h : s.Ample) (role : Role) (hrole : role ≠ .iterator ∧ role ≠ .initializer)
    (hparent : parent < s.size) (hchild : s.Handy child)
    (hlist : (s.kind parent).isStatementList = false) (hplace : (s.kind parent).isFirm = false) :
    Fills M s (s.appendAs parent role child) := by
  have happend := fills_append (M := M) h hparent hchild hlist (.inl hplace)
  exact happend.trans (fills_setRole happend.ample child (by simpa using hrole))

theorem fills_insert (h : s.Ample) (index : Nat) (hparent : parent < s.size)
    (hchild : s.Handy child) (hjoins : s.Joins child parent)
    (hplace : (s.kind parent).isFirm = false) : Fills M s (s.insert parent index child) := by
  rw [insert_eq]
  refine fills_attach h hparent hchild (fun ids => ?_) hjoins (.inl hplace)
  exact List.perm_insertIdx child ids (Nat.min_le_right _ _)

/-! ### Putting a node in the place of another one -/

@[simp] theorem length_replaceFirst (ids : List NodeId) :
    (replaceFirst old new ids).length = ids.length := by
  induction ids with
  | nil => rfl
  | cons id rest ih =>
      rw [replaceFirst]
      split
      · rfl
      · rw [List.length_cons, List.length_cons, ih]

theorem length_children_replace (hne : old ≠ new) (hx : s.parent? new ≠ some x) :
    ((s.replace old new).children x).length = (s.children x).length := by
  have hrow : ((s.detach new).setRole new (s.role? old)).children x = s.children x := by
    rw [setRole, children_modifyHead, children_detach, if_neg hx]
  rw [replace_eq hne]
  dsimp only
  split
  · rw [swap, children_setParent, children_mapChildren, children_setParent]
    split
    · rw [length_replaceFirst, hrow]
    · rw [hrow]
  · split <;> exact congrArg List.length hrow

/-- The node that takes the place of another one may come there if the other one is no expression
statement, or is one in no list of statements. -/
theorem Ample.joins_replace (h : s.Ample) (hne : old ≠ new) (hnew : new < s.size)
    (hold : s.parent? old = some p) (hlist : s.kind old = .semicolon → s.kind new ≠ .semicolon →
      (s.kind p).isStatementList = false) : (s.replace old new).Joins new p := by
  have hkind : ∀ x, (s.replace old new).kind x = s.kind x := by
    intro x
    rw [kind, head_replace hne hnew]
    split
    case isTrue heq => rw [heq]; rfl
    case isFalse => rfl
  rw [Joins, Unlooped, hkind, hkind, role?, head_replace hne hnew, if_pos rfl]
  intro hstatements hsemicolon
  refine h.listed hold hstatements fun hcase => ?_
  rw [hlist hcase hsemicolon] at hstatements
  cases hstatements

/-- A declaration around a node keeps its name when another node takes the place of the node. -/
theorem Named.replace (h : s.Named x) (hs : s.Linked) (hs' : (s.replace old new).Linked)
    (hne : old ≠ new) (hnew : new < s.size) (hx : s.parent? new ≠ some x) :
    (s.replace old new).Named x := by
  have hbare : ∀ y, ((s.replace old new).head y).kind = (s.head y).kind ∧
      ((s.replace old new).head y).text? = (s.head y).text? := by
    intro y
    rw [head_replace hne hnew]
    split
    case isTrue heq => exact heq ▸ ⟨rfl, rfl⟩
    case isFalse => exact ⟨rfl, rfl⟩
  refine h.of_links hs hs' (hbare x).1 (fun htext => ?_) fun c hc hrole => ?_
  · rwa [text?, (hbare x).2]
  · by_cases hcase : c = old
    · subst hcase
      refine ⟨new, ?_, ?_⟩
      · rw [parent?_replace hne hnew, if_pos rfl, hc]
      · rw [role?, head_replace hne hnew, if_pos rfl]
        exact hrole
    · have hother : c ≠ new := by
        rintro rfl
        exact hx hc
      refine ⟨c, ?_, ?_⟩
      · rw [parent?_replace hne hnew, if_neg hother, if_neg hcase, hc]
      · rwa [role?, head_replace hne hnew, if_neg hother]

/-- A node that can be moved takes the place of another one. -/
theorem fills_replace (h : s.Ample) (hroot : old ≠ s.root) (hnew : s.Handy new)
    (hlist : s.kind old = .semicolon → s.kind new ≠ .semicolon → ∀ p, s.parent? old = some p →
      (s.kind p).isStatementList = false)
    (hplace : s.Spare old ∨ s.kind old ≠ .declaration ∧ new ∈ M) : Fills M s (s.replace old new) := by
  by_cases hne : old = new
  · rw [replace, if_pos hne]
    exact .refl h
  have hlinked : (s.replace old new).Linked := h.toLinked.replace hnew.lt hnew.ne_root
  refine fills_of_links h hlinked size_replace (root_replace hroot) (fun x => ?_) (fun x hx => ?_)
    (fun x hx => ?_) fun x p hp => ?_
  · rw [kind, head_replace hne hnew.lt]
    split
    case isTrue heq => rw [heq]; rfl
    case isFalse => rfl
  · rw [length_children_replace hne fun hlink => by simpa [hx] using hnew.spare x hlink]
  · exact hx.replace h.toLinked hlinked hne hnew.lt fun hlink => by
      simpa [hx.kind_eq] using hnew.spare x hlink
  · rw [parent?_replace hne hnew.lt] at hp
    split at hp
    case isTrue heq =>
        subst heq
        refine .inr ⟨hnew.filled, ?_, fun hkind hfilled => ?_, fun _ => ?_⟩
        · exact h.joins_replace hne hnew.lt hp fun hcase hkind => hlist hcase hkind p hp
        · -- What a list of declarations holds is a declaration.
          have hold := (hfilled.named hkind old ((h.linked p old).mpr hp)).kind_eq
          rcases hplace with hspare | hother
          · simpa [hkind] using hspare p hp
          · exact absurd hold hother.1
        · exact hplace.imp (fun hold => hold p hp) And.right
    case isFalse hx =>
        split at hp
        · cases hp
        · exact .inl ⟨hp, by rw [role?, head_replace hne hnew.lt, if_neg hx]; exact fun heq => heq⟩

/-- The declarations of a list move to the end of another list. -/
theorem fills_moveChildren (h : s.Ample) (hsource : s.kind source = .varList)
    (hfilled : s.Filled source) (htarget : s.kind target = .varList) :
    Fills M s (s.moveChildren source target) := by
  have hlt : target < s.size := lt_of_kind (by simp [htarget])
  have hlinked : (s.moveChildren source target).Linked := h.toLinked.moveChildren hlt
  have hparent : ∀ c, (s.moveChildren source target).parent? c =
      if c ∈ s.children source then some target else s.parent? c := fun c =>
    parent?_moveChildren fun c hc => h.child_lt hc
  refine fills_of_links h hlinked size_moveChildren
    (congrArg (·.getD 0) chosenRoot_moveChildren) (fun x => congrArg Head.kind head_moveChildren)
    (fun x hx => ?_) (fun x hx => ?_) fun x p hp => ?_
  · have hne : ∀ {y}, s.kind y = .varList → x ≠ y := by
      rintro y hy rfl
      simp [hx] at hy
    rw [children_moveChildren hlt, if_neg (hne htarget), if_neg (hne hsource)]
  · refine hx.of_kept h.toLinked hlinked (fun _ _ => head_moveChildren) fun c hc => ?_
    rw [hparent, if_neg]
    · exact hc
    · intro hmem
      have hlink := (h.parent?_of_mem hmem).symm.trans hc
      rw [← Option.some_inj.mp hlink] at hx
      simpa [hsource] using hx.kind_eq
  · rw [hparent] at hp
    split at hp
    case isTrue hx =>
        obtain rfl := Option.some_inj.mp hp
        have hlink := h.parent?_of_mem hx
        refine .inr ⟨h.filled hlink, joins_of_kind ?_, fun _ _ => hfilled.named hsource x hx,
          fun hspare => ?_⟩
        · rw [kind, head_moveChildren, show (s.head target).kind = .varList from htarget]
          rfl
        · simpa [hsource] using hspare source hlink
    case isFalse => exact .inl ⟨hp, by rw [role?, head_moveChildren]; exact fun heq => heq⟩

/-! ### Grafted trees -/

/-- A node that shows a tree with all parts has its parts. -/
theorem Shows.filled {t : Tree} (ht : t.Full) (h : s.Shows x t) : s.Filled x := by
  have hrow := showsList_iff.mp h.children
  cases ht with
  | node hfull _ hnamed _ =>
      refine ⟨fun hkind => ?_, fun hkind d hd => ?_⟩ <;> rw [kind, h.head_eq] at hkind
      · rw [hrow.length_eq]
        exact hfull hkind
      · obtain ⟨i, hi, rfl⟩ := List.getElem_of_mem hd
        exact (hrow.get hi (hrow.length_eq ▸ hi)).named_iff.mp (hnamed hkind _ (List.getElem_mem _))

/-- The children of a node that shows such a tree may be where they are. -/
theorem Shows.joins {t : Tree} (ht : t.Full) (h : s.Shows p t) (hx : x ∈ s.children p) :
    s.Joins x p := by
  cases ht with
  | node _ hlisted _ _ =>
      intro hkind
      rw [kind, h.head_eq] at hkind
      obtain ⟨i, hi, rfl⟩ := List.getElem_of_mem hx
      have hrow := showsList_iff.mp h.children
      have hshows := hrow.get hi (hrow.length_eq ▸ hi)
      rw [List.get_eq_getElem, List.get_eq_getElem] at hshows
      rw [Unlooped, kind, role?, hshows.head_eq]
      exact hlisted hkind _ (List.getElem_mem _)

/-- A store that grows by a tree with all parts has conditional expressions with all parts. -/
theorem Grown.fills (h : Grown Tree.Full s s' [id]) (hs : s.Ample) (hid : s'.parent? id = none) :
    Fills M s s' := by
  have hsame : ∀ x < s.size, s'.head x = s.head x := by
    intro x hx
    rw [head, h.node_eq x hx]
    rfl
  have hhead : ∀ x < s.size, s'.kind x = s.kind x := fun x hx => congrArg Head.kind (hsame x hx)
  have hparent : ∀ x < s.size, s'.parent? x = s.parent? x := by
    intro x hx
    rw [parent?, h.node_eq x hx]
    rfl
  have hlinked := hs.toLinked.of_grown h hid
  have hfilled : ∀ x < s.size, s.Filled x → s'.Filled x := by
    intro x hx hfilled
    have hrow : s'.children x = s.children x := by
      rw [children, h.node_eq x hx]
      rfl
    refine ⟨fun hcase => ?_, fun hcase d hd => ?_⟩ <;> rw [hhead x hx] at hcase
    · rw [hrow]
      exact hfilled.parts hcase
    · rw [hrow] at hd
      exact (hfilled.named hcase d hd).of_kept hs.toLinked hlinked hsame fun c hc => by
        rwa [hparent c (parent?_lt hc)]
  have hroot : s'.root = s.root := by rw [root, h.chosenRoot_eq]; rfl
  refine ⟨⟨hlinked, ?_, ?_, ?_⟩, h.size_le, hroot, hhead, ?_, hfilled⟩
  · rw [hroot, hhead _ hs.root_lt, hs.root_kind]
  · intro x p hp
    by_cases hx : x < s.size
    · rw [hparent x hx] at hp
      exact hfilled x hx (hs.filled hp)
    · obtain ⟨t, ht, hshows⟩ := h.shows x (Nat.le_of_not_lt hx) (parent?_lt hp)
      exact hshows.filled ht
  · intro x p hp
    by_cases hx : x < s.size
    · rw [hparent x hx] at hp
      rw [Joins, Unlooped, hhead p (hs.parent_lt hp), hhead x hx, role?, hsame x hx]
      exact hs.listed hp
    · have hne : x ∉ [id] := by
        rw [List.mem_singleton]
        rintro rfl
        rw [hid] at hp
        cases hp
      obtain ⟨hle, hmem⟩ := h.up p x (Nat.le_of_not_lt hx) hp hne
      have hdown := h.down p x hle hmem
      obtain ⟨t, ht, hshows⟩ := h.shows p hle (hdown.1.trans hdown.2.1)
      exact hshows.joins ht hmem
  · intro x hx _ hspare p hp
    rw [hparent x hx] at hp
    rw [hhead p (hs.parent_lt hp)]
    exact hspare p hp

/-- A tree with all parts is grafted as a node that can be put anywhere. -/
theorem fills_graft (hs : s.Ample) {t : Tree} (ht : t.Full) (hgraft : s.graft t = (id, s')) :
    Fills M s s' ∧ s.size ≤ id ∧ s'.Handy id := by
  obtain ⟨hid, hgrown, hlt, hparent, hshows⟩ :=
    grown_graft (fun _ _ => Tree.Full.of_mem) ht s
  rw [hgraft] at hid hgrown hlt hparent hshows
  dsimp only at hid hgrown hlt hparent hshows
  subst hid
  have hfills := hgrown.fills (M := M) hs hparent
  refine ⟨hfills, Nat.le_refl _, hlt, ?_, spare_of_parent hparent, hshows.filled ht⟩
  rw [hfills.root_eq]
  exact Nat.ne_of_gt hs.root_lt

theorem ample_ofTree {t : Tree} (ht : t.Full) (hkind : t.head.kind = .script) :
    (ofTree t).Ample := by
  obtain ⟨hid, hgrown, -, -, hshows⟩ := grown_graft (fun _ _ => Tree.Full.of_mem) ht {}
  refine ⟨(forest_ofTree t).toLinked, ?_, fun {x p} hp => ?_, fun {x p} hp => ?_⟩
  · rw [← hkind, ← hshows.head_eq, ← hid]
    rfl
  · obtain ⟨t', ht', hshows'⟩ := hgrown.shows x (Nat.zero_le x) (parent?_lt hp)
    have hfilled := hshows'.filled ht'
    refine ⟨hfilled.parts, fun hkind d hd => ?_⟩
    have hnamed := hfilled.named hkind d hd
    exact ⟨hnamed.kind_eq, hnamed.title⟩
  · have hmem : x ∈ (graft t {}).2.children p := ((forest_ofTree t).linked p x).mpr hp
    obtain ⟨t', ht', hshows'⟩ := hgrown.shows p (Nat.zero_le p) (lt_of_mem_children hmem)
    have hjoins := hshows'.joins ht' hmem
    exact hjoins

end Store

end ScriptMin
