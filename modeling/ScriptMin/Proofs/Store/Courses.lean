import ScriptMin.Proofs.Store.Bodies
import ScriptMin.Proofs.Tree.Jumps

/-!
What a body evaluates, in order. Evaluation goes from a node on to the children in the same body; a
declaration evaluates nothing unless it has an initializer. The events of a node are the lists of
declarations, the assignments and initializers, and the other expressions and statements that are
met on the way.
Main statement: where most nodes keep their children, the events of a node are what they were if
those of the others are.
-/

namespace ScriptMin

/-- What a value is assigned to: a name, or what else can be assigned to. -/
inductive Target where
  | name (text : String)
  | node (id : NodeId)
  deriving DecidableEq, Repr

/-- What happens at a node. -/
inductive Event where
  /-- A list of declarations is met. -/
  | list (id : NodeId)
  /-- A declaration is initialized, or a plain assignment is made. -/
  | assigns (target : Target) (value : NodeId)
  /-- Another expression is evaluated. -/
  | expression (id : NodeId)
  /-- Another statement, or a part of one, is run. -/
  | passes (id : NodeId)
  deriving DecidableEq, Repr

def Event.list? : Event → Option NodeId
  | .list id => some id
  | _ => none

/-- Whether nodes of the kind are met as they are and where they stand, and neither stand for
declarations nor take them in. -/
def Kind.isMet (kind : Kind) : Bool :=
  !kind.inPattern && kind != .varList && kind != .declaration && kind != .assign && kind != .forLoop

namespace Store

variable {s s' : Store} {id x y z c d p : NodeId} {keep : Event → Bool}

/-- The children that evaluation goes on to in the same body. -/
def onward (s : Store) (id : NodeId) : List NodeId :=
  match s.kind id with
  | .function => []
  | .declaration =>
    match s.child? id .initializer with
    | some initializer => (s.child? id .names).toList ++ [initializer]
    | none => []
  | _ => s.children id

/-- A node and those that evaluation goes on to from there. -/
def courseFrom (s : Store) : Nat → NodeId → List NodeId
  | 0, id => [id]
  | depth + 1, id => id :: (s.onward id).flatMap (courseFrom s depth)

/-- A node and those that evaluation goes on to from there. -/
def course (s : Store) (id : NodeId) : List NodeId := s.courseFrom s.size id

def target (s : Store) (id : NodeId) : Target :=
  if s.kind id = .identifier then .name (s.text id) else .node id

def declaredTarget (s : Store) (declaration : NodeId) : Target :=
  match s.child? declaration .names with
  | some pattern => s.target pattern
  | none => .name (s.text declaration)

def event? (s : Store) (id : NodeId) : Option Event :=
  match s.kind id with
  | .varList => some (.list id)
  | .declaration => (s.child? id .initializer).map (.assigns (s.declaredTarget id))
  | .assign =>
    match (s.head id).assignOp, s.children id with
    | none, [left, right] => some (.assigns (s.target left) right)
    | _, _ => some (.expression id)
  | _ => some (if (s.head id).isExpression then .expression id else .passes id)

def events (s : Store) (keep : Event → Bool) (id : NodeId) : List Event :=
  ((s.course id).filterMap s.event?).filter keep

def bodyEvents (s : Store) (keep : Event → Bool) (body : NodeId) : List Event :=
  (s.onward body).flatMap (s.events keep)

/-! ### Recursion -/

theorem mem_of_mem_onward (hc : c ∈ s.onward id) : c ∈ s.children id := by
  rw [onward] at hc
  split at hc
  · cases hc
  · split at hc
    case h_1 initializer hchild =>
      rcases List.mem_append.mp hc with hc | hc
      · exact mem_of_child? (Option.mem_toList.mp hc)
      · rw [List.mem_singleton.mp hc]
        exact mem_of_child? hchild
    case h_2 => cases hc
  · exact hc

namespace Forest

/-- What holds of a node once it holds of all nodes below it holds of all nodes. -/
theorem descend_within (h : s.Forest) {motive : NodeId → Prop}
    (step : ∀ id, (∀ x, s.Within x id → x ≠ id → motive x) → motive id) (id : NodeId) :
    motive id := by
  induction hn : s.size - s.lineLength id using Nat.strongRecOn generalizing id with
  | _ n ih =>
      refine step id fun x hx hne => ih _ ?_ x rfl
      obtain heq | ⟨p, hp, hpid⟩ := hx.cases
      · exact absurd heq hne
      have hlt := h.lineLength_lt hp
      have hle := hpid.lineLength_le
      have hsize : s.lineLength x ≤ s.size := lineLength_le_size
      omega

theorem courseFrom_eq (h : s.Forest) {depth : Nat} (depth' : Nat)
    (hdepth : s.size ≤ s.lineLength id + depth) (hdepth' : s.size ≤ s.lineLength id + depth') :
    s.courseFrom depth id = s.courseFrom depth' id := by
  have hend : ∀ {depth id}, s.size ≤ s.lineLength id → s.courseFrom depth id = [id] := by
    intro depth id hline
    have hnone : s.onward id = [] := by
      refine List.eq_nil_iff_forall_not_mem.mpr fun c hc => ?_
      have hmem := mem_of_mem_onward hc
      rw [h.children_eq_nil hline] at hmem
      cases hmem
    cases depth with
    | zero => rfl
    | succ depth => rw [courseFrom, hnone, List.flatMap_nil]
  induction depth generalizing id depth' with
  | zero => rw [hend hdepth, hend hdepth]
  | succ depth ih =>
      cases depth' with
      | zero => rw [hend hdepth', hend hdepth']
      | succ depth' =>
          rw [courseFrom, courseFrom]
          congr 1
          refine List.flatMap_congr fun c hc => ?_
          have hlt := h.lineLength_lt (h.parent?_of_mem (mem_of_mem_onward hc))
          exact ih depth' (by omega) (by omega)

/-- The way on from a node goes through its children. -/
theorem course_eq (h : s.Forest) (id : NodeId) :
    s.course id = id :: (s.onward id).flatMap s.course := by
  rw [course, h.courseFrom_eq (s.size + 1) (Nat.le_add_left _ _) (by omega), courseFrom]
  rfl

/-- What happens at a node and from there on. -/
theorem events_eq (h : s.Forest) (id : NodeId) :
    s.events keep id = (s.event? id).toList.filter keep ++ s.bodyEvents keep id := by
  have hbelow : (((s.onward id).flatMap s.course).filterMap s.event?).filter keep =
      s.bodyEvents keep id := by
    rw [bodyEvents, List.filterMap_flatMap, List.filter_flatMap]
    rfl
  rw [events, h.course_eq id, List.filterMap_cons, ← hbelow]
  cases hevent : s.event? id with
  | none => rfl
  | some e =>
      rw [Option.toList_some, ← List.filter_append]
      rfl

end Forest

/-! ### Places without events -/

/-- Patterns are made of names, and nothing else happens there. -/
theorem IsPattern.inner_kind (h : s.Sound) (hs : s.Forest) (hpattern : s.IsPattern id) :
    ∀ x ∈ s.inner id, (s.kind x).inPattern := by
  have hleaf : ∀ {id}, (s.kind id).inPattern → s.children id = [] →
      ∀ x ∈ s.inner id, (s.kind x).inPattern := by
    intro id hkind hnone x hx
    rw [hs.inner_eq, bodyNodes_eq, hnone, List.flatMap_nil, ite_self, List.mem_singleton] at hx
    rwa [hx]
  have hchildren : ∀ {id}, (s.kind id).inPattern →
      (∀ c ∈ s.children id, ∀ x ∈ s.inner c, (s.kind x).inPattern) →
      ∀ x ∈ s.inner id, (s.kind x).inPattern := by
    intro id hkind hbelow x hx
    rw [hs.inner_eq, List.mem_cons] at hx
    rcases hx with rfl | hx
    · exact hkind
    · split at hx
      · cases hx
      · obtain ⟨c, hc, hx⟩ := List.mem_flatMap.mp hx
        exact hbelow c hc x hx
  induction hpattern with
  | leaf hkind =>
      rcases hkind with hkind | hkind
      · exact hleaf (by rw [hkind]; rfl) (h.children_of_key (by rw [hkind]; rfl))
      · exact hleaf (by rw [hkind]; rfl) (h.children_of_hole hkind)
  | array hkind _ ih => exact hchildren (by rw [hkind]; rfl) ih
  | object hkind hfields _ ih =>
      refine hchildren (by rw [hkind]; rfl) fun c hc => ?_
      refine hchildren (by rw [hfields c hc]; rfl) fun e he => ?_
      obtain ⟨i, hi, hhosts⟩ := h.hosts he
      rw [Head.Hosts, show (s.head c).kind = .propertyInit from hfields c hc] at hhosts
      rcases hhosts with ⟨-, hkey, -⟩ | rfl
      · exact hleaf (Kind.inPattern_of_isKey hkey) (h.children_of_key hkey)
      · exact ih c hc e hi

/-- What a declaration brings where patterns bring nothing is what its initializer brings. -/
theorem Sound.flatMap_declaration {β : Type} {f : NodeId → List β} (h : s.Sound)
    (hkind : s.kind d = .declaration)
    (hnames : ∀ c ∈ s.children d, s.role? c = some .names → f c = []) :
    (s.children d).flatMap f = (s.child? d .initializer).toList.flatMap f := by
  have hroles : ∀ c ∈ s.children d, s.role? c = some .initializer ∨ f c = [] := by
    intro c hc
    exact (h.hosts_declaration hkind hc).symm.imp_right fun hhosts => hnames c hc hhosts.1
  cases hchild : s.child? d .initializer with
  | none =>
      refine List.flatMap_eq_nil_iff.mpr fun c hc => (hroles c hc).resolve_left fun hrole => ?_
      rw [h.child?_of_mem (by rw [hkind]; rfl) hc hrole] at hchild
      cases hchild
  | some initializer =>
      -- The other children are patterns.
      have hother : ∀ c ∈ s.children d, c ≠ initializer → f c = [] := by
        refine fun c hc hne => (hroles c hc).resolve_left fun hrole => hne ?_
        rw [h.child?_of_mem (by rw [hkind]; rfl) hc hrole] at hchild
        exact Option.some_inj.mp hchild
      obtain ⟨before, behind, hsplit⟩ := List.append_of_mem (mem_of_child? hchild)
      have hnodup : (before ++ initializer :: behind).Nodup := hsplit ▸ h.nodup d
      rw [List.nodup_append] at hnodup
      rw [hsplit, List.flatMap_append, List.flatMap_cons, Option.toList_some, List.flatMap_singleton,
        List.flatMap_eq_nil_iff.mpr, List.flatMap_eq_nil_iff.mpr, List.append_nil, List.nil_append]
      · refine fun c hc => hother c (by simp [hsplit, hc]) fun heq => ?_
        exact (List.nodup_cons.mp hnodup.2.1).1 (heq ▸ hc)
      · refine fun c hc => hother c (by simp [hsplit, hc]) fun heq => ?_
        exact hnodup.2.2 c hc initializer List.mem_cons_self heq

/-! ### Places with events -/

theorem mem_events {e : Event} :
    e ∈ s.events keep id ↔ ∃ x ∈ s.course id, s.event? x = some e ∧ keep e = true := by
  rw [events, List.mem_filter, List.mem_filterMap]
  exact ⟨fun ⟨⟨x, hx, he⟩, hkeep⟩ => ⟨x, hx, he, hkeep⟩,
    fun ⟨x, hx, he, hkeep⟩ => ⟨⟨x, hx, he⟩, hkeep⟩⟩

/-- Evaluation stays inside a body. -/
theorem Forest.inside_of_mem_course (h : s.Forest) (hx : x ∈ s.course y) :
    x = y ∨ s.kind y ≠ .function ∧ s.Inside y x := by
  induction y using h.descend with
  | step y ih =>
      rw [h.course_eq, List.mem_cons, List.mem_flatMap] at hx
      refine hx.imp_right fun ⟨c, hc, hxc⟩ => ?_
      have hkind : s.kind y ≠ .function := by
        intro hkind
        rw [onward, hkind] at hc
        cases hc
      have hmem := mem_of_mem_onward hc
      refine ⟨hkind, inside_iff.mpr ⟨c, hmem, ih c hmem hxc⟩⟩

/-- Evaluation comes to all nodes inside a body that are not in patterns. -/
theorem Sound.mem_course (h : s.Sound) (hs : s.Forest) (hx : s.Inside y x)
    (hkind : s.kind y ≠ .function) (hpattern : (s.kind x).inPattern = false) : x ∈ s.course y := by
  induction y using hs.descend with
  | step y ih =>
      obtain ⟨c, hc, hxc⟩ := inside_iff.mp hx
      rw [hs.course_eq, List.mem_cons, List.mem_flatMap]
      refine .inr ⟨c, ?_, ?_⟩
      · rw [onward]
        split
        · exact absurd ‹_› hkind
        case h_2 hdeclaration =>
            have hroles : (s.kind y).hasRoles := by rw [hdeclaration]; rfl
            rcases h.hosts_declaration hdeclaration hc with ⟨hrole, -⟩ | hrole
            · have hchild := h.child?_of_mem hroles hc hrole
              split
              · rw [hchild]
                exact List.mem_cons_self
              · -- All there is to a pattern belongs to it.
                have hin : (s.kind x).inPattern := by
                  refine ((h.formed y).patterns c hc ?_).inner_kind h hs x (hs.mem_inner.mpr hxc)
                  rw [Head.binds, show (s.head y).kind = .declaration from hdeclaration]
                  exact beq_iff_eq.mpr hrole
                rw [hin] at hpattern
                cases hpattern
            · rw [h.child?_of_mem hroles hc hrole]
              exact List.mem_append_right _ (List.mem_singleton_self c)
        · exact hc
      · rcases hxc with rfl | ⟨hfunction, hxc⟩
        · rw [hs.course_eq]
          exact List.mem_cons_self
        · exact ih c hc hxc hfunction

/-- What happens at an expression or a statement is that it is met. -/
theorem event?_of_isMet (hkind : (s.kind x).isMet) :
    s.event? x = some (if (s.head x).isExpression then .expression x else .passes x) := by
  rw [event?]
  split
  case h_4 => rfl
  all_goals
    simp [Kind.isMet, *] at hkind

/-- What is met is the node that it is about. -/
theorem eq_of_event? (h : s.event? x = some (.expression y) ∨ s.event? x = some (.passes y)) :
    x = y := by
  rw [event?] at h
  split at h
  case h_1 => simp at h
  case h_2 => simp at h
  case h_3 =>
      split at h
      · simp at h
      · simpa using h
  case h_4 => split at h <;> simpa using h

/-! ### Lists of declarations -/

def lists (s : Store) (body : NodeId) : List NodeId :=
  (s.bodyNodes body).filter fun id => s.kind id == .varList

/-- The lists of declarations at a node and below, in the same body. -/
def innerLists (s : Store) (id : NodeId) : List NodeId :=
  (s.inner id).filter fun id => s.kind id == .varList

theorem lists_eq (s : Store) (body : NodeId) :
    s.lists body = (s.children body).flatMap s.innerLists := by
  rw [lists, bodyNodes_eq, List.filter_flatMap]
  rfl

theorem Forest.innerLists_eq (h : s.Forest) (id : NodeId) : s.innerLists id =
    (if s.kind id = .varList then [id] else []) ++
      if s.kind id = .function then [] else s.lists id := by
  rw [innerLists, h.inner_eq, List.filter_cons]
  by_cases hkind : s.kind id = .function
  · simp [hkind]
  · simp only [beq_iff_eq, if_neg hkind]
    split
    · rfl
    · rfl

theorem IsPattern.innerLists_eq_nil (h : s.Sound) (hs : s.Forest) (hpattern : s.IsPattern id) :
    s.innerLists id = [] := by
  refine List.filter_eq_nil_iff.mpr fun x hx hkind => ?_
  have hin := hpattern.inner_kind h hs x hx
  rw [beq_iff_eq.mp hkind] at hin
  cases hin

theorem list?_event? (s : Store) (id : NodeId) :
    (s.event? id).bind Event.list? = if s.kind id = .varList then some id else none := by
  rw [event?]
  split
  case h_1 hkind => rw [if_pos hkind]; rfl
  case h_2 hkind =>
      rw [if_neg (by simp [hkind])]
      cases s.child? id .initializer <;> rfl
  case h_3 hkind =>
      rw [if_neg (by simp [hkind])]
      split <;> rfl
  case h_4 hkind _ _ =>
      rw [if_neg hkind]
      split <;> rfl

theorem list?_filter (e : Option Event) : (e.toList.filter keep).filterMap Event.list? =
    (e.bind Event.list?).toList.filter fun list => keep (.list list) := by
  cases e with
  | none => rfl
  | some e =>
      cases hkeep : keep e
      all_goals
        cases e <;> simp [hkeep, Event.list?]

/-- The lists that the events of a node are about are those at the node and below. -/
theorem Sound.list?_events (h : s.Sound) (hs : s.Forest) (id : NodeId) :
    (s.events keep id).filterMap Event.list? =
      (s.innerLists id).filter fun list => keep (.list list) := by
  induction id using hs.descend with
  | step id ih =>
      rw [hs.events_eq, hs.innerLists_eq, List.filterMap_append, List.filter_append, list?_filter,
        list?_event?, bodyEvents, List.filterMap_flatMap]
      congr 1
      · split <;> rfl
      split
      case isTrue hkind =>
        rw [onward, hkind]
        rfl
      case isFalse hfunction =>
        rw [lists_eq, List.filter_flatMap]
        by_cases hkind : s.kind id = .declaration
        · -- Patterns have no events, and neither has a declaration without initializer.
          have hpattern : ∀ c ∈ s.children id, s.role? c = some .names → s.innerLists c = [] := by
            intro c hc hrole
            refine ((h.formed id).patterns c hc ?_).innerLists_eq_nil h hs
            rw [Head.binds, show (s.head id).kind = .declaration from hkind]
            exact beq_iff_eq.mpr hrole
          rw [h.flatMap_declaration hkind fun c hc hrole => by rw [hpattern c hc hrole]; rfl, onward,
            hkind]
          dsimp only
          cases hchild : s.child? id .initializer with
          | none => rfl
          | some initializer =>
              rw [List.flatMap_append, Option.toList_some, List.flatMap_singleton,
                List.flatMap_singleton, ih _ (mem_of_child? hchild), List.flatMap_eq_nil_iff.mpr,
                List.nil_append]
              intro c hc
              have hnames := Option.mem_toList.mp hc
              rw [ih c (mem_of_child? hnames),
                hpattern c (mem_of_child? hnames) (role?_of_child? hnames)]
              rfl
        · rw [onward]
          split
          · exact absurd ‹_› hfunction
          · exact absurd ‹_› hkind
          · exact List.flatMap_congr ih

end Store

end ScriptMin
