import ScriptMin.Proofs.Pass.Dissolving
import ScriptMin.Proofs.Pass.LocalNames
import ScriptMin.Proofs.Pass.ReductionParts

/-!
What a combination of declarations does in a body. Nodes move inside the body only, lists that are
iterators of loops are not touched, and what happens in the body stays, apart from the lists that are
merged, dissolved or made. Main statement: the lists of the body are those that it had, other than
these.
-/

namespace ScriptMin

open Edit

/-- The role in which a node of the kind has a pattern whose names belong to the body, other than a
declaration. -/
def Kind.bindingRole? : Kind → Option Role
  | .catchClause => some .exception
  | .forIn => some .iterator
  | _ => none

namespace Store

variable {s s' s'' : Store} {b c d l p q r x y : NodeId} {R R' : NodeId → Prop} {keep : Event → Bool}

/-- A node is another one or stands below it, but in none of the bodies of the functions there. -/
inductive Beneath (s : Store) (i : NodeId) : NodeId → Prop where
  | here : Beneath s i i
  | step {d c : NodeId} (beneath : Beneath s i d) (mem : c ∈ s.children d)
      (not_body : s.kind c ≠ .script) : Beneath s i c

/-- A node belongs to a list of declarations that is the iterator of a loop. -/
def InIterator (s : Store) (x : NodeId) : Prop :=
  ∃ i, s.kind i = .varList ∧ Declarations.isIterator s i ∧ s.Beneath i x

/-- What belongs to an iterator is the iterator, or has a parent that belongs to it. -/
theorem InIterator.parent (hs : s.Linked) (h : s.InIterator x) :
    s.kind x = .varList ∧ Declarations.isIterator s x ∨
      ∃ p, s.parent? x = some p ∧ s.InIterator p := by
  obtain ⟨i, hkind, hi, hx⟩ := h
  cases hx with
  | here => exact .inl ⟨hkind, hi⟩
  | step hd hc _ => exact .inr ⟨_, hs.parent?_of_mem hc, i, hkind, hi, hd⟩

/-- No body belongs to an iterator. -/
theorem InIterator.kind_ne_script (h : s.InIterator x) : s.kind x ≠ .script := by
  obtain ⟨i, hkind, -, hx⟩ := h
  cases hx with
  | here => simp [hkind]
  | step _ _ hbody => exact hbody

theorem InIterator.lt (h : s.InIterator x) : x < s.size := lt_of_kind h.kind_ne_script

/-- A node stands in a list of declarations. -/
def InList (s : Store) (x : NodeId) : Prop := ∃ l, s.parent? x = some l ∧ s.kind l = .varList

/-- A node in a body that a combination of its declarations may touch. Of the declarations these are
those in lists. -/
structure Touchable (s : Store) (b x : NodeId) : Prop where
  inside : x = b ∨ s.Inside b x
  not_function : s.kind x ≠ .function
  not_operation : (s.kind x).isOperation = false
  not_iterator : ¬ s.InIterator x
  in_list : s.kind x = .declaration → s.InList x

/-- A list of declarations of a body has gone, or is a new one. -/
structure Changed (b : NodeId) (s s' : Store) (r : NodeId) : Prop where
  kind_eq : s'.kind r = .varList
  plain : s.size ≤ r ∨ Declarations.isIterator s r = false
  fresh : s'.Inside b r → s.size ≤ r ∧ Declarations.isIterator s' r = false

/-- What is kept of the events stays in order when declarations are combined. It is about nodes that
are there, and not about loops with heads, which lists of declarations may move into. -/
structure Stable (s : Store) (keep : Event → Bool) : Prop where
  fresh : s.Fresh keep
  loops : ∀ x, s.kind x = .forLoop → keep (.passes x) = false

theorem Stable.of_kind_eq (h : s.Stable keep) (hle : s.size ≤ s'.size)
    (hkind : ∀ x < s.size, s'.kind x = s.kind x) : s'.Stable keep where
  fresh := h.fresh.mono hle
  loops x hloop := by
    by_cases hx : x < s.size
    · exact h.loops x ((hkind x hx).symm.trans hloop)
    · exact (h.fresh x (Nat.le_of_not_lt hx)).2

/-- What a combination of declarations in a body gives, where some lists go or are made. -/
structure Combines (b : NodeId) (R : NodeId → Prop) (s s' : Store) : Prop where
  forest : s'.Forest
  touches : Touches True (s.Touchable b) (fun _ => False) s s'
  held : ∀ c < s.size, s'.parent? c = s.parent? c ∨
    s.Inside b c ∧ ¬ s.InIterator c ∧ (s.kind c = .declaration → s.InList c)
  stay : ∀ x < s.size, s.kind x ≠ .varList → s.kind x ≠ .declaration → ∀ c ∈ s.children x,
    s.kind c ≠ .varList → c ∈ s'.children x ∧ s'.role? c = s.role? c
  clause : ∀ x < s.size, ∀ role, (s.kind x).bindingRole? = some role →
    s'.child? x role = s.child? x role
  plain : ∀ l, s.kind l = .varList → Declarations.isIterator s l = false → s.Inside b l →
    s'.Inside b l → Declarations.isIterator s' l = false
  changed : ∀ r, R r → Changed b s s' r
  events : ∀ keep, s.Stable keep → (∀ r, R r → keep (.list r) = false) → ∀ y < s.size,
    s.kind y = .script → s'.events keep y = s.events keep y

/-- A list without a place has gone. -/
theorem changed_of_gone (h : s'.Linked) (hkind : s'.kind r = .varList)
    (hit : Declarations.isIterator s r = false) (hgone : s'.parent? r = none) : Changed b s s' r := by
  refine ⟨hkind, .inr hit, fun hinside => ?_⟩
  obtain ⟨p, hp, -⟩ := hinside.parent h
  rw [hgone] at hp
  cases hp

namespace Combines

theorem refl (h : s.Forest) (b : NodeId) : Combines b (fun _ => False) s s where
  forest := h
  touches := .refl _ _ _
  held _ _ := .inl rfl
  stay _ _ _ _ _ hc _ := ⟨hc, rfl⟩
  clause _ _ _ _ := rfl
  plain _ _ hit _ _ := hit
  changed _ hr := hr.elim
  events _ _ _ _ _ _ := rfl

variable (h : Combines b R s s')
include h

theorem lt (hx : x < s.size) : x < s'.size := h.touches.lt hx

theorem kind_eq (hx : x < s.size) : s'.kind x = s.kind x := h.touches.kind_eq hx

/-- Iterators stay iterators. -/
theorem isIterator (hkind : s.kind l = .varList) (hl : Declarations.isIterator s l) :
    Declarations.isIterator s' l := by
  have hlt : l < s.size := lt_of_kind (by simp [hkind])
  rw [Declarations.isIterator, h.touches.listRole l hlt (fun ht => ht.not_iterator ?_) hkind]
  · exact hl
  · exact ⟨l, hkind, hl, .here⟩

/-- What belongs to an iterator keeps its children. -/
theorem row_of_inIterator (hx : s.InIterator x) : s'.children x = s.children x :=
  h.touches.row x hx.lt fun ht => ht.not_iterator hx

theorem inIterator (hs : s.Linked) (hx : s.InIterator x) : s'.InIterator x := by
  obtain ⟨i, hkind, hi, hx⟩ := hx
  have hlt : i < s.size := lt_of_kind (by simp [hkind])
  refine ⟨i, (h.kind_eq hlt).trans hkind, h.isIterator hkind hi, ?_⟩
  induction hx with
  | here => exact .here
  | @step d c hd hc hbody ih =>
      refine .step ih ?_ (by rwa [h.kind_eq (hs.child_lt hc)])
      rwa [h.row_of_inIterator ⟨i, hkind, hi, hd⟩]

/-- What is inside the body afterwards was there before, or is new. -/
theorem back (hs : s.Linked) (hx : s'.Inside b x) (hlt : x < s.size) : s.Inside b x := by
  induction hx with
  | @child c hc =>
      rcases h.held c hlt with hsame | ⟨hinside, -⟩
      · rw [h.forest.parent?_of_mem hc] at hsame
        exact .child ((hs.linked b c).mpr hsame.symm)
      · exact hinside
  | @step d c hd hkind hc ih =>
      rcases h.held c hlt with hsame | ⟨hinside, -⟩
      · rw [h.forest.parent?_of_mem hc] at hsame
        have hltd := hs.parent_lt hsame.symm
        rw [h.kind_eq hltd] at hkind
        exact .step (ih hltd) hkind ((hs.linked d c).mpr hsame.symm)
      · exact hinside

/-- Declarations that are in lists afterwards were in lists before. -/
theorem inList (hs : s.Linked) (hlt : x < s.size) (hkind : s.kind x = .declaration)
    (hx : s'.InList x) : s.InList x := by
  rcases h.held x hlt with hsame | ⟨-, -, hlist⟩
  · obtain ⟨l, hlink, hl⟩ := hx
    rw [hsame] at hlink
    exact ⟨l, hlink, by rwa [h.kind_eq (hs.parent_lt hlink)] at hl⟩
  · exact hlist hkind

theorem touchable (hs : s.Linked) (hx : s'.Touchable b x) (hlt : x < s.size) :
    s.Touchable b x where
  inside := hx.inside.imp_right fun hinside => h.back hs hinside hlt
  not_function := by
    rw [← h.kind_eq hlt]
    exact hx.not_function
  not_operation := by
    rw [← h.kind_eq hlt]
    exact hx.not_operation
  not_iterator hmem := hx.not_iterator (h.inIterator hs hmem)
  in_list hkind := h.inList hs hlt hkind (hx.in_list ((h.kind_eq hlt).trans hkind))

theorem trans (h' : Combines b R' s' s'') (hs : s.Linked) :
    Combines b (fun r => R r ∨ R' r) s s'' where
  forest := h'.forest
  touches := (h.touches.trans h'.touches).mono
    (fun x hx ht => ht.elim id fun ht => h.touchable hs ht hx) fun _ _ _ hx => hx.elim id id
  held c hc := by
    rcases h.held c hc with hsame | hinside
    · rcases h'.held c (h.lt hc) with hsame' | ⟨hinside', hnot, hlist⟩
      · exact .inl (hsame'.trans hsame)
      · refine .inr ⟨h.back hs hinside' hc, fun hmem => hnot (h.inIterator hs hmem), fun hkind => ?_⟩
        exact h.inList hs hc hkind (hlist ((h.kind_eq hc).trans hkind))
    · exact .inr hinside
  stay x hx hlist hdeclaration c hc hkind := by
    obtain ⟨hmem, hrole⟩ := h.stay x hx hlist hdeclaration c hc hkind
    obtain ⟨hmem', hrole'⟩ := h'.stay x (h.lt hx) (by rwa [h.kind_eq hx]) (by rwa [h.kind_eq hx]) c
      hmem (by rwa [h.kind_eq (hs.child_lt hc)])
    exact ⟨hmem', hrole'.trans hrole⟩
  clause x hx role hrole := by
    rw [h'.clause x (h.lt hx) role (by rwa [h.kind_eq hx]), h.clause x hx role hrole]
  plain l hkind hit hinside hinside' := by
    have hlt : l < s.size := lt_of_kind (by simp [hkind])
    have hinside₁ := h'.back h.forest.toLinked hinside' (h.lt hlt)
    exact h'.plain l ((h.kind_eq hlt).trans hkind) (h.plain l hkind hit hinside hinside₁) hinside₁
      hinside'
  changed r hr := by
    rcases hr with hr | hr
    · obtain ⟨hkind, hplain, hnew⟩ := h.changed r hr
      have hlt := lt_of_kind (show s'.kind r ≠ .script by simp [hkind])
      refine ⟨(h'.kind_eq hlt).trans hkind, hplain, fun hinside => ?_⟩
      have hinside₁ := h'.back h.forest.toLinked hinside hlt
      obtain ⟨hle, hit⟩ := hnew hinside₁
      exact ⟨hle, h'.plain r hkind hit hinside₁ hinside⟩
    · obtain ⟨hkind, hplain, hnew⟩ := h'.changed r hr
      refine ⟨hkind, (Nat.lt_or_ge r s.size).symm.imp_right fun hlt => ?_, fun hinside => ?_⟩
      · rw [h'.kind_eq (h.lt hlt), h.kind_eq hlt] at hkind
        refine Bool.eq_false_iff.mpr fun hit => ?_
        rw [h.isIterator hkind hit] at hplain
        exact hplain.elim (Nat.not_le_of_lt (h.lt hlt)) Bool.noConfusion
      · obtain ⟨hle, hit⟩ := hnew hinside
        exact ⟨h.touches.size_le.trans hle, hit⟩
  events keep hstable hR y hy hkind := by
    have hstable' : s'.Stable keep := hstable.of_kind_eq h.touches.size_le fun _ => h.kind_eq
    rw [h'.events keep hstable' (fun r hr => hR r (.inr hr)) y (h.lt hy)
      (by rwa [h.kind_eq hy]), h.events keep hstable (fun r hr => hR r (.inl hr)) y hy hkind]

theorem mono (hR : ∀ r, R r → R' r) (hchanged : ∀ r, R' r → Changed b s s' r) :
    Combines b R' s s' :=
  { h with
    changed := hchanged
    events := fun keep hstable hkeep => h.events keep hstable fun r hr => hkeep r (hR r hr) }

/-- What is met in a body is met there afterwards. -/
theorem inside (hs : s.Sound) (hf : s.Forest) (hbody : s.kind b = .script) (hx : s.Inside b x)
    (hkind : (s.kind x).isMet) : s'.Inside b x := by
  have hb : b < s.size := hx.owner_lt
  have hlt : x < s.size := hx.lt hf.toLinked
  have hfunction : s.kind b ≠ .function := by simp [hbody]
  have hpattern : (s.kind x).inPattern = false := by
    simp only [Kind.isMet, Bool.and_eq_true, Bool.not_eq_true'] at hkind
    exact hkind.1.1.1.1
  let keep : Event → Bool := fun e => e == .expression x || e == .passes x
  have hstable : s.Stable keep := by
    refine ⟨fun z hz => ?_, fun z hz => ?_⟩
    · have hne : z ≠ x := fun heq => Nat.not_lt_of_le hz (heq ▸ hlt)
      simp [keep, hne]
    · have hne : z ≠ x := by
        rintro rfl
        simp [Kind.isMet, hz] at hkind
      simp [keep, hne]
  have hevents := h.events keep hstable (fun r _ => by simp [keep]) b hb hbody
  obtain ⟨e, hkeep, hevent⟩ : ∃ e, (e = .expression x ∨ e = .passes x) ∧ s.event? x = some e := by
    rw [event?_of_isMet hkind]
    split
    · exact ⟨_, .inl rfl, rfl⟩
    · exact ⟨_, .inr rfl, rfl⟩
  have hmem : e ∈ s.events keep b :=
    mem_events.mpr ⟨x, hs.mem_course hf hx hfunction hpattern, hevent, by simpa [keep] using hkeep⟩
  rw [← hevents] at hmem
  obtain ⟨z, hz, hevent', -⟩ := mem_events.mp hmem
  obtain rfl : z = x := eq_of_event? (s := s') (by rcases hkeep with rfl | rfl <;> simp [hevent'])
  refine (h.forest.inside_of_mem_course hz).resolve_left ?_ |>.2
  rintro rfl
  exact Nat.lt_irrefl _ (hx.lineLength_lt hf)

end Combines

/-! ### Lists -/

theorem Forest.mem_lists (h : s.Forest) : l ∈ s.lists b ↔ s.Inside b l ∧ s.kind l = .varList := by
  rw [lists, List.mem_filter, h.mem_bodyNodes, beq_iff_eq]

theorem Forest.innerLists_of_script (h : s.Forest) (hkind : s.kind b = .script) :
    s.innerLists b = s.lists b := by
  simp [h.innerLists_eq, hkind]

/-- A list of a body is an iterator if it was one. -/
theorem Combines.isIterator_eq (h : Combines b R s s') (hs : s.Forest) (hl : l ∈ s.lists b)
    (hl' : l ∈ s'.lists b) : Declarations.isIterator s' l = Declarations.isIterator s l := by
  obtain ⟨hinside, hkind⟩ := hs.mem_lists.mp hl
  cases hit : Declarations.isIterator s l with
  | true => exact h.isIterator hkind hit
  | false => exact h.plain l hkind hit hinside (h.forest.mem_lists.mp hl').1

/-- The lists of a body are those that it had, other than those that have gone or come. -/
theorem Combines.filter_lists [DecidablePred R] (h : Combines b R s s') (hs : s.Sound)
    (hf : s.Forest) (hs' : s'.Sound) (hb : b < s.size) (hkind : s.kind b = .script) :
    (s'.lists b).filter (fun l => !decide (R l)) = (s.lists b).filter fun l => !decide (R l) := by
  have hevents := h.events (fun e => e.list?.any fun l => !decide (R l))
    ⟨fun _ _ => ⟨rfl, rfl⟩, fun _ _ => rfl⟩ (fun r hr => by simpa [Event.list?] using hr) b hb hkind
  have hlists := congrArg (List.filterMap Event.list?) hevents
  rw [hs'.list?_events h.forest, hs.list?_events hf,
    h.forest.innerLists_of_script ((h.kind_eq hb).trans hkind),
    hf.innerLists_of_script hkind] at hlists
  exact hlists

/-- A body that gets no list has those that it had, other than those that have gone. -/
theorem Combines.lists_eq [DecidablePred R] (h : Combines b R s s') (hs : s.Sound) (hf : s.Forest)
    (hs' : s'.Sound) (hb : b < s.size) (hkind : s.kind b = .script) (hold : ∀ r, R r → r < s.size) :
    s'.lists b = (s.lists b).filter fun l => !decide (R l) := by
  rw [← h.filter_lists hs hf hs' hb hkind]
  refine (List.filter_eq_self.mpr fun l hl => ?_).symm
  rw [Bool.not_eq_true', decide_eq_false_iff_not]
  intro hR
  exact Nat.not_lt_of_le ((h.changed l hR).fresh (h.forest.mem_lists.mp hl).1).1 (hold l hR)

/-- A declaration that is not touched keeps its name. -/
theorem Named.touches {L : Prop} {D A : NodeId → Prop} (h : s.Named d) (ht : Touches L D A s s')
    (hD : ¬ D d) : s'.Named d := by
  have hlt : d < s.size := lt_of_kind (by simp [h.kind_eq])
  refine ⟨(ht.kind_eq hlt).trans h.kind_eq, ?_⟩
  rw [ht.text?_eq hlt, ht.row d hlt hD]
  exact h.title.imp_right fun ⟨c, hc, hrole⟩ => ⟨c, hc, by rwa [ht.role d hlt hD c hc]⟩

/-- The iterators of loops among the lists of a body are those that it had. -/
theorem Combines.filter_isIterator (h : Combines b R s s') (hs : s.Sound) (hf : s.Forest)
    (hs' : s'.Sound) (hb : b < s.size) (hkind : s.kind b = .script) :
    (s'.lists b).filter (Declarations.isIterator s') =
      (s.lists b).filter (Declarations.isIterator s) := by
  classical
  have hsplit : ∀ {t : Store}, (∀ l ∈ t.lists b, Declarations.isIterator t l → ¬ R l) →
      (t.lists b).filter (Declarations.isIterator t) =
        ((t.lists b).filter fun l => !decide (R l)).filter (Declarations.isIterator t) := by
    intro t hR
    rw [List.filter_filter]
    refine List.filter_congr fun l hl => ?_
    cases hit : Declarations.isIterator t l with
    | false => rfl
    | true => simpa using hR l hl hit
  have hlists := h.filter_lists hs hf hs' hb hkind
  rw [hsplit fun l hl hit hR => ?_, hsplit fun l hl hit hR => ?_, hlists]
  · refine List.filter_congr fun l hl => h.isIterator_eq hf (List.mem_of_mem_filter hl) ?_
    rw [← hlists] at hl
    exact List.mem_of_mem_filter hl
  · have hlt : l < s.size := lt_of_kind (by simp [(hf.mem_lists.mp hl).2])
    rcases (h.changed l hR).plain with hle | hplain
    · exact Nat.not_lt_of_le hle hlt
    · rw [hit] at hplain
      cases hplain
  · have hfresh := ((h.changed l hR).fresh (h.forest.mem_lists.mp hl).1).2
    rw [hit] at hfresh
    cases hfresh

/-- A node is where it was, and has the children it had, in the roles they had. -/
structure Rests (s s' : Store) (x : NodeId) : Prop where
  parent_eq : s'.parent? x = s.parent? x
  role_eq : s'.role? x = s.role? x
  row : s'.children x = s.children x
  roles : ∀ c ∈ s.children x, s'.role? c = s.role? c

theorem Rests.trans (h : Rests s s' x) (h' : Rests s' s'' x) : Rests s s'' x where
  parent_eq := h'.parent_eq.trans h.parent_eq
  role_eq := h'.role_eq.trans h.role_eq
  row := h'.row.trans h.row
  roles c hc := (h'.roles c (h.row ▸ hc)).trans (h.roles c hc)

/-- What belongs to the iterators of loops is left as it is. -/
theorem Combines.rests (h : Combines b R s s') (hs : s.Linked) (hx : s.InIterator x) :
    Rests s s' x := by
  have hoff : ∀ {z}, s.InIterator z → ¬ s.Touchable b z := fun hz ht => ht.not_iterator hz
  refine ⟨(h.held x hx.lt).resolve_right fun hheld => hheld.2.1 hx, ?_, h.row_of_inIterator hx,
    h.touches.role x hx.lt (hoff hx)⟩
  rcases hx.parent hs with ⟨hkind, -⟩ | ⟨p, hlink, hp⟩
  · exact h.touches.listRole x hx.lt (hoff hx) hkind
  · exact h.touches.role p hp.lt (hoff hp) x ((hs.linked p x).mpr hlink)

/-- A body that loses one list. -/
theorem Combines.lists_eq_of_gone (h : Combines b (· = r) s s') (hs : s.Sound) (hf : s.Forest)
    (hs' : s'.Sound) (hb : b < s.size) (hkind : s.kind b = .script) (hr : r < s.size) :
    s'.lists b = (s.lists b).filter (· ≠ r) := by
  simpa using h.lists_eq hs hf hs' hb hkind fun _ heq => heq ▸ hr

/-! ### Places of lists -/

theorem isExpression_of_list (hkind : s.kind l = .varList) : (s.head l).isExpression = false := by
  rw [Head.isExpression, show (s.head l).kind = .varList from hkind]
  rfl

namespace Supplied

variable (h : s.Supplied)
include h

/-- The parts of a declaration are expressions. -/
theorem part_isExpression (hkind : s.kind d = .declaration) (hc : c ∈ s.children d) :
    (s.head c).isExpression := by
  have hadmits := h.ordered.admits (h.sound.parent?_of_mem hc)
  rcases h.sound.hosts_declaration hkind hc with ⟨hrole, -⟩ | hrole <;>
    exact hadmits.role _ hrole rfl

/-- A list of declarations stands where evaluation goes on to all children, and in no other list. -/
theorem place_of_list (hkind : s.kind l = .varList) (hlink : s.parent? l = some p) :
    (s.kind p).goesOn ∧ s.kind p ≠ .varList := by
  have hadmits := h.ordered.admits hlink
  have hexpression := isExpression_of_list hkind
  refine ⟨?_, fun hp => by simp [kind, hadmits.declaration hp] at hkind⟩
  cases hp : s.kind p <;> first | rfl | skip
  case function =>
      rcases hadmits.function hp with hbad | hbad <;> simp [kind, hbad] at hkind
  case assign =>
      have hoperation := h.ordered.not_isOperation hlink hexpression
      rw [hp] at hoperation
      cases hoperation
  case declaration =>
      rw [h.part_isExpression hp ((h.sound.linked _ _).mpr hlink)] at hexpression
      cases hexpression

/-- No list is needed where it stands. -/
theorem spare_list (hkind : s.kind l = .varList) : s.Spare l :=
  h.spare_of_statement (isExpression_of_list hkind) (by simp [hkind])

/-- A list that has a place can be put somewhere else. -/
theorem handy_list (hkind : s.kind l = .varList) (hlink : s.parent? l = some p) : s.Handy l where
  lt := parent?_lt hlink
  ne_root := h.ample.ne_root hlink
  spare := h.spare_list hkind
  filled := h.ample.filled hlink

theorem declaration_of_mem (hkind : s.kind l = .varList) (hd : d ∈ s.children l) :
    s.kind d = .declaration :=
  (h.ordered.admits (h.sound.parent?_of_mem hd)).declaration hkind

theorem part_kind (hkind : s.kind d = .declaration) (hc : c ∈ s.children d) :
    s.kind c ≠ .varList ∧ s.kind c ≠ .declaration := by
  have hexpression := h.part_isExpression hkind hc
  constructor <;>
    · intro hcase
      rw [Head.isExpression, show (s.head c).kind = _ from hcase] at hexpression
      cases hexpression

theorem standing (hcollector : s.kind c = .varList) (hkind : s.kind l = .varList) (hne : l ≠ c)
    (hlink : s.parent? l = some p) : s.Standing c l p where
  forest := h.ordered.toForest
  collector_kind := hcollector
  list_kind := hkind
  declarations _ hd := h.declaration_of_mem hkind hd
  parts _ hd _ hc := h.part_kind (h.declaration_of_mem hkind hd) hc
  ne := hne
  link := hlink
  goes := (h.place_of_list hkind hlink).1
  place := (h.place_of_list hkind hlink).2

/-! ### What may be touched -/

/-- Below a list of declarations are declarations and values, and the parameters of functions in
them. -/
theorem valued_of_beneath {C : Plan} (hC : Planned C s) (hkind : s.kind l = .varList)
    (hd : s.Beneath l d) (hc : c ∈ s.children d) (hbody : s.kind c ≠ .script) :
    s.kind c = .declaration ∨ s.kind c = .list ∨ (C c).valued := by
  have hs := h.sound.toLinked
  induction hd generalizing c with
  | here => exact .inl (h.declaration_of_mem hkind hc)
  | @step _ d _ hd hbodyd ih =>
      have hlink := hs.parent?_of_mem hc
      rcases ih hd hbodyd with hdeclaration | hlist | hvalued
      · refine .inr (.inr (hC.valued hlink ?_))
        rcases h.sound.hosts_declaration hdeclaration hc with ⟨hrole, -⟩ | hrole <;>
          exact Head.values_of_role hrole rfl
      · refine .inr (.inr (hC.valued hlink (Head.values_of_isOperation ?_)))
        rw [show (s.head d).kind = _ from hlist]
        rfl
      · by_cases hfunction : s.kind d = .function
        · exact .inr (.inl (((hC.admits hlink).function hfunction).resolve_right hbody))
        · refine .inr (.inr ((hC.below hlink).valued ?_))
          rwa [Reach.valued_inside hfunction]

/-- No list of declarations stands below another one, but in the bodies of functions there. -/
theorem not_list_of_beneath (hkind : s.kind l = .varList) (hd : s.Beneath l d)
    (hc : c ∈ s.children d) : s.kind c ≠ .varList := by
  intro hlist
  obtain ⟨C, hC⟩ := h.ordered.arranged
  rcases h.valued_of_beneath hC hkind hd hc (by simp [hlist]) with hcase | hcase | hvalued
  · simp [hlist] at hcase
  · simp [hlist] at hcase
  · rw [hC.not_valued (h.sound.child_lt hc) (by rw [hlist]; rfl)] at hvalued
    cases hvalued

/-- The place of a list belongs to no iterator. -/
theorem not_inIterator_place (hkind : s.kind l = .varList) (hlink : s.parent? l = some p) :
    ¬ s.InIterator p := by
  rintro ⟨i, hi, -, hp⟩
  exact h.not_list_of_beneath hi hp ((h.sound.linked p l).mpr hlink) hkind

theorem not_inIterator_of_parent (hlink : s.parent? x = some p) (hp : ¬ s.InIterator p)
    (hkind : s.kind x ≠ .varList) : ¬ s.InIterator x := by
  intro hx
  rcases hx.parent h.sound.toLinked with hlist | ⟨q, hq, hx⟩
  · exact hkind hlist.1
  · exact hp (Option.some_inj.mp (hlink.symm.trans hq) ▸ hx)

theorem not_inIterator_of_list (hkind : s.kind l = .varList)
    (hl : Declarations.isIterator s l = false) : ¬ s.InIterator l := by
  intro hx
  rcases hx.parent h.sound.toLinked with ⟨-, hit⟩ | ⟨p, hlink, hp⟩
  · rw [hl] at hit
    cases hit
  · exact h.not_inIterator_place hkind hlink hp

theorem not_inIterator_of_mem (hkind : s.kind l = .varList)
    (hl : Declarations.isIterator s l = false) (hd : d ∈ s.children l) : ¬ s.InIterator d :=
  h.not_inIterator_of_parent (h.sound.parent?_of_mem hd) (h.not_inIterator_of_list hkind hl)
    (by simp [h.declaration_of_mem hkind hd])

theorem touchable_list (hl : s.Inside b l) (hkind : s.kind l = .varList)
    (hit : Declarations.isIterator s l = false) : s.Touchable b l :=
  ⟨.inr hl, by simp [hkind], by rw [hkind]; rfl, h.not_inIterator_of_list hkind hit, by simp [hkind]⟩

theorem touchable_mem (hl : s.Inside b l) (hkind : s.kind l = .varList)
    (hit : Declarations.isIterator s l = false) (hd : d ∈ s.children l) : s.Touchable b d :=
  ⟨.inr (.step hl (by simp [hkind]) hd), by simp [h.declaration_of_mem hkind hd],
    by rw [h.declaration_of_mem hkind hd]; rfl, h.not_inIterator_of_mem hkind hit hd,
    fun _ => ⟨l, h.sound.parent?_of_mem hd, hkind⟩⟩

/-- The place of a list may be touched. -/
theorem touchable_place (hl : s.Inside b l) (hkind : s.kind l = .varList)
    (hlink : s.parent? l = some p) : s.Touchable b p := by
  obtain ⟨hgoes, hp⟩ := h.place_of_list hkind hlink
  obtain ⟨q, hq, hinside⟩ := hl.parent h.sound.toLinked
  obtain rfl := Option.some_inj.mp (hlink.symm.trans hq)
  have hne : s.kind p ≠ .function ∧ s.kind p ≠ .declaration := by
    refine ⟨?_, ?_⟩ <;>
      · intro hcase
        rw [hcase] at hgoes
        cases hgoes
  exact ⟨hinside.imp_right And.right, hne.1,
    h.ordered.not_isOperation hlink (isExpression_of_list hkind), h.not_inIterator_place hkind hlink,
    fun heq => absurd heq hne.2⟩

end Supplied

end Store

namespace Declarations

open Store

variable {s s' : Store} {b l list : NodeId} {x : String} {L : Prop} {D A : NodeId → Prop}

/-! ### Names of lists -/

def listNames (s : Store) (list : NodeId) : List String := (s.children list).flatMap (namesOf s)

/-- A list of a body declares a name. -/
def Lists (s : Store) (b : NodeId) (x : String) : Prop := ∃ l ∈ s.lists b, x ∈ listNames s l

/-- The declarations of a list are what they were. -/
structure Spares (list : NodeId) (s s' : Store) : Prop where
  initialized : ∀ d ∈ s.children list, isInitialized s' d = isInitialized s d
  text : ∀ d ∈ s.children list, s'.text d = s.text d
  names : ∀ d ∈ s.children list, namesOf s' d = namesOf s d

/-- An edit that touches neither the declarations of a list nor patterns in them. -/
theorem spares_of_touches (h : Touches L D A s s') (hs : s.Supplied) (hs' : s'.Forest)
    (hkind : s.kind list = .varList)
    (hoff : ∀ x, s.Inside list x → x ∈ s.children list ∨ (s.kind x).inPattern → ¬ D x) :
    Spares list s s' := by
  have hd : ∀ d ∈ s.children list, d < s.size ∧ s.kind d = .declaration ∧ ¬ D d := fun d hd =>
    have hkindd := hs.declaration_of_mem hkind hd
    ⟨lt_of_kind (by simp [hkindd]), hkindd, hoff d (.child hd) (.inl hd)⟩
  refine ⟨fun d hmem => ?_, fun d hmem => h.text_eq (hd d hmem).1, fun d hmem => ?_⟩
  · exact h.isInitialized_eq (hd d hmem).1 (hd d hmem).2.2
  · obtain ⟨-, hkindd, hDd⟩ := hd d hmem
    refine h.namesOf_eq hs.ordered.toForest hs' hs.sound hkindd hDd fun x hx hpattern => ?_
    exact hoff x ((Inside.child hmem).trans (by simp [hkindd]) hx) (.inr hpattern)

/-- An edit that touches only nodes of other kinds. -/
theorem spares_of_kinds (h : Touches L D A s s') (hs : s.Supplied) (hs' : s'.Forest)
    (hkind : s.kind list = .varList)
    (hoff : ∀ x, D x → s.kind x ≠ .declaration ∧ (s.kind x).inPattern = false) :
    Spares list s s' := by
  refine spares_of_touches h hs hs' hkind fun x _ hx hD => ?_
  obtain ⟨hdeclaration, hpattern⟩ := hoff x hD
  rcases hx with hx | hx
  · exact hdeclaration (hs.declaration_of_mem hkind hx)
  · rw [hpattern] at hx
    cases hx

theorem Spares.listNames_eq (h : Spares list s s') (hrow : s'.children list = s.children list) :
    listNames s' list = listNames s list := by
  rw [listNames, listNames, hrow]
  exact List.flatMap_congr h.names

/-- Where the lists of a body have the names they had, the body has. -/
theorem lists_iff (hlists : s'.lists b = s.lists b)
    (hnames : ∀ l ∈ s.lists b, x ∈ listNames s' l ↔ x ∈ listNames s l) :
    Lists s' b x ↔ Lists s b x := by
  rw [Lists, Lists, hlists]
  exact exists_congr fun l => and_congr_right (hnames l)

/-- Where a list goes and another one gets its names, the body has the names it had. -/
theorem lists_iff_of_gone {gone : NodeId} (hlists : s'.lists b = (s.lists b).filter (· ≠ gone))
    (hgone : gone ∈ s.lists b) (hlist : list ∈ s.lists b) (hne : gone ≠ list)
    (hother : ∀ l ∈ s.lists b, l ≠ gone → l ≠ list → listNames s' l = listNames s l)
    (hnames : x ∈ listNames s' list ↔ x ∈ listNames s list ∨ x ∈ listNames s gone) :
    Lists s' b x ↔ Lists s b x := by
  have hmem : ∀ {l}, l ∈ s'.lists b ↔ l ∈ s.lists b ∧ l ≠ gone := by
    intro l
    rw [hlists, List.mem_filter, decide_eq_true_iff]
  constructor
  · rintro ⟨l, hl, hx⟩
    obtain ⟨hl, hlgone⟩ := hmem.mp hl
    by_cases heq : l = list
    · rw [heq] at hx
      exact (hnames.mp hx).elim (fun hx => ⟨list, hlist, hx⟩) fun hx => ⟨gone, hgone, hx⟩
    · exact ⟨l, hl, hother l hl hlgone heq ▸ hx⟩
  · rintro ⟨l, hl, hx⟩
    have hlist' := hmem.mpr ⟨hlist, hne.symm⟩
    by_cases heq : l = list
    · exact ⟨list, hlist', hnames.mpr (.inl (heq ▸ hx))⟩
    by_cases hlgone : l = gone
    · exact ⟨list, hlist', hnames.mpr (.inr (hlgone ▸ hx))⟩
    · exact ⟨l, hmem.mpr ⟨hl, hlgone⟩, by rwa [hother l hl hlgone heq]⟩

end Declarations

end ScriptMin
