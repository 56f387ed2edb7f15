import Mathlib.Order.Basic
import ScriptMin.Tree.Basic

/-!
Jumps and their targets. What the constructs around a node allow to the jumps in it is summed up
as its reach, which is found on the way down from the topmost node. Main statement: in a tree
whose nodes all fit their reach, every jump has its target in the body of its own function.
-/

namespace ScriptMin

/-! ### Reach -/

namespace Kind

def isLoop : Kind → Bool
  | .forLoop | .forIn | .whileLoop | .doLoop => true
  | _ => false

/-- Whether jumps do not care for a node of the kind around them. -/
def isNeutral : Kind → Bool
  | .forLoop | .forIn | .whileLoop | .doLoop | .switchCase | .label | .function => false
  | _ => true

/-- Whether nodes of the kind are allowed only where statements are. -/
def isUnvalued : Kind → Bool
  | .varList | .script => true
  | _ => false

/-- Whether it depends on what is around whether a node of the kind is allowed. -/
def isBound : Kind → Bool
  | .breakStmt | .continueStmt | .label | .returnStmt | .yieldOf | .varList | .script => true
  | _ => false

end Kind

/-- What the constructs around a node allow. -/
structure Reach where
  /-- A `break` without a name. -/
  breaks : Bool := false
  /-- A `continue` without a name. -/
  continues : Bool := false
  /-- A `return` or `yield`. -/
  returns : Bool := false
  /-- Labels of the body that are around. -/
  labels : List String := []
  /-- Labels of loops that are around. -/
  loops : List String := []
  /-- Labels of the node itself. -/
  own : List String := []
  /-- Whether the place is one in a value, where no variables are declared. -/
  valued : Bool := false
  deriving DecidableEq, Repr

namespace Reach

/-- The reach inside a construct that jumps do not care for. -/
def idle (X : Reach) : Reach := { X with own := [] }

def value (X : Reach) : Reach := { X with valued := true }

def inside (h : Head) (X : Reach) : Reach :=
  if h.kind.isLoop then
    { X with breaks := true, continues := true, loops := X.own ++ X.loops, own := [] }
  else
    match h.kind with
    | .switchCase => { X with breaks := true, own := [] }
    | .label => { X with labels := h.text :: X.labels, own := h.text :: X.own }
    | .function => { returns := true }
    | _ => X.idle

/-- What is allowed here is allowed there, and the same labels are around. -/
structure Le (X Y : Reach) : Prop where
  breaks : X.breaks → Y.breaks
  continues : X.continues → Y.continues
  returns : X.returns → Y.returns
  labels : X.labels = Y.labels
  loops : X.loops ⊆ Y.loops
  own : X.own ⊆ Y.own
  valued : Y.valued → X.valued

instance : Preorder Reach where
  le := Le
  le_refl X := ⟨id, id, id, rfl, List.Subset.refl _, List.Subset.refl _, id⟩
  le_trans X Y Z h h' :=
    ⟨h'.breaks ∘ h.breaks, h'.continues ∘ h.continues, h'.returns ∘ h.returns,
      h.labels.trans h'.labels, List.Subset.trans h.loops h'.loops,
      List.Subset.trans h.own h'.own, h.valued ∘ h'.valued⟩

variable {X Y : Reach} {h h' : Head}

@[simp] theorem idle_idle : X.idle.idle = X.idle := rfl

theorem value_idle : X.idle.value = X.value.idle := rfl

theorem idle_le : X.idle ≤ X := ⟨id, id, id, rfl, List.Subset.refl _, List.nil_subset _, id⟩

theorem idle_mono (hle : X ≤ Y) : X.idle ≤ Y.idle :=
  ⟨hle.breaks, hle.continues, hle.returns, hle.labels, hle.loops, List.Subset.refl _, hle.valued⟩

theorem value_le : X.value ≤ X :=
  ⟨id, id, id, rfl, List.Subset.refl _, List.Subset.refl _, fun _ => rfl⟩

/-- What is in a value anyway is allowed as a value. -/
theorem le_value (hle : X ≤ Y) (hX : X.valued) : X ≤ Y.value :=
  ⟨hle.breaks, hle.continues, hle.returns, hle.labels, hle.loops, hle.own, fun _ => hX⟩

theorem idle_eq_self (hown : X.own = []) : X.idle = X := by
  rw [idle, ← hown]

theorem inside_of_isLoop (hkind : h.kind.isLoop) : inside h X =
    { X with breaks := true, continues := true, loops := X.own ++ X.loops, own := [] } :=
  if_pos hkind

theorem inside_of_isNeutral (hkind : h.kind.isNeutral) : inside h X = X.idle := by
  obtain ⟨hloop, hswitch, hlabel, hfunction⟩ : ¬ h.kind.isLoop ∧ h.kind ≠ .switchCase ∧
      h.kind ≠ .label ∧ h.kind ≠ .function := by
    cases hk : h.kind <;> simp_all [Kind.isNeutral, Kind.isLoop]
  rw [inside, if_neg hloop]
  split
  · exact absurd ‹_› hswitch
  · exact absurd ‹_› hlabel
  · exact absurd ‹_› hfunction
  · rfl

/-- Only the kind of a node and the name of a label matter for what is inside. -/
theorem inside_congr (hkind : h'.kind = h.kind) (htext : h.kind = .label → h'.text = h.text) :
    inside h' X = inside h X := by
  rw [inside, inside, hkind]
  split
  · rfl
  · split
    · rfl
    · rw [htext ‹_›]
    · rfl
    · rfl

theorem inside_mono (h : Head) (hle : X ≤ Y) : inside h X ≤ inside h Y := by
  simp only [inside]
  split
  · refine ⟨id, id, hle.returns, hle.labels, ?_, List.Subset.refl _, hle.valued⟩
    exact List.append_subset.mpr ⟨List.Subset.trans hle.own (List.subset_append_left _ _),
      List.Subset.trans hle.loops (List.subset_append_right _ _)⟩
  · split
    · exact ⟨id, hle.continues, hle.returns, hle.labels, hle.loops, List.Subset.refl _, hle.valued⟩
    · refine ⟨hle.breaks, hle.continues, hle.returns, ?_, hle.loops, ?_, hle.valued⟩
      · exact congrArg (h.text :: ·) hle.labels
      · exact List.cons_subset_cons _ hle.own
    · exact le_refl _
    · exact idle_mono hle

/-- Loops allow what is allowed around them, but for the labels of the loop. -/
theorem idle_le_inside_of_isLoop (hkind : h.kind.isLoop) : X.idle ≤ inside h X := by
  rw [inside_of_isLoop hkind]
  exact ⟨fun _ => rfl, fun _ => rfl, id, rfl, List.subset_append_right _ _, List.Subset.refl _, id⟩

/-- What is in a value is in it further down, unless a function is between. -/
theorem valued_inside (hfunction : h.kind ≠ .function) : (inside h X).valued = X.valued := by
  rw [inside]
  split
  · rfl
  · split
    · rfl
    · rfl
    · exact absurd ‹_› hfunction
    · rfl

end Reach

/-! ### Where nodes stand -/

namespace Head

/-- A node is allowed where certain constructs are around it. -/
structure FitsIn (h : Head) (X : Reach) : Prop where
  plainBreak : h.kind = .breakStmt → h.text? = none → X.breaks
  namedBreak : ∀ name, h.kind = .breakStmt → h.text? = some name → name ∈ X.labels
  plainContinue : h.kind = .continueStmt → h.text? = none → X.continues
  namedContinue : ∀ name, h.kind = .continueStmt → h.text? = some name → name ∈ X.loops
  label : h.kind = .label → h.text ∉ X.labels
  leaving : h.kind = .returnStmt ∨ h.kind = .yieldOf → X.returns
  unvalued : h.kind.isUnvalued → X.valued = false

variable {h h' p c : Head} {X Y : Reach}

theorem fitsIn_of_not_isBound (hkind : h.kind.isBound = false) : h.FitsIn X := by
  constructor
  case leaving => rintro (h | h) <;> simp [h, Kind.isBound] at hkind
  case unvalued => cases hcase : h.kind <;> simp_all [Kind.isBound, Kind.isUnvalued]
  all_goals
    intros
    simp_all [Kind.isBound]

/-- Outside of values, what asks for nothing else around it is allowed. -/
theorem fitsIn_of_isUnvalued (hkind : h.kind.isBound → h.kind.isUnvalued)
    (hX : h.kind.isUnvalued → X.valued = false) : h.FitsIn X := by
  cases hunvalued : h.kind.isUnvalued with
  | false =>
      refine fitsIn_of_not_isBound (Bool.eq_false_iff.mpr fun hbound => ?_)
      rw [hkind hbound] at hunvalued
      cases hunvalued
  | true =>
      refine ⟨?_, ?_, ?_, ?_, ?_, ?_, hX⟩
      case refine_6 => rintro (h | h) <;> simp [h, Kind.isUnvalued] at hunvalued
      all_goals
        intros
        simp_all [Kind.isUnvalued]

theorem FitsIn.mono (hfits : h.FitsIn X) (hle : X ≤ Y) : h.FitsIn Y where
  plainBreak hkind htext := hle.breaks (hfits.plainBreak hkind htext)
  namedBreak name hkind htext := hle.labels ▸ hfits.namedBreak name hkind htext
  plainContinue hkind htext := hle.continues (hfits.plainContinue hkind htext)
  namedContinue name hkind htext := hle.loops (hfits.namedContinue name hkind htext)
  label hkind := hle.labels ▸ hfits.label hkind
  leaving hkind := hle.returns (hfits.leaving hkind)
  unvalued hkind := Bool.eq_false_iff.mpr fun hY =>
    Bool.eq_false_iff.mp (hfits.unvalued hkind) (hle.valued hY)

/-- Where a node is allowed depends on its kind and, for jumps and labels, on its name. -/
theorem FitsIn.congr (hfits : h.FitsIn X) (hkind : h'.kind = h.kind)
    (hpayload : h.kind.isBound → h'.payload = h.payload) : h'.FitsIn X := by
  cases hbound : h.kind.isBound with
  | false => exact fitsIn_of_not_isBound (hkind ▸ hbound)
  | true =>
      have htext : h'.text? = h.text? := by rw [text?, text?, hpayload hbound]
      have hname : h'.text = h.text := by rw [text, text, htext]
      constructor
      all_goals
        rw [hkind]
        try rw [htext]
        try rw [hname]
      · exact hfits.plainBreak
      · exact hfits.namedBreak
      · exact hfits.plainContinue
      · exact hfits.namedContinue
      · exact hfits.label
      · exact hfits.leaving
      · exact hfits.unvalued

/-! ### What nodes have as children -/

def isExpression (h : Head) : Bool :=
  !h.kind.isStatement || (h.kind == .function && h.form == some .expressed)

end Head

def Role.isExpression : Role → Bool
  | .condition | .expression | .value | .initializer | .names | .discriminant | .label => true
  | _ => false

/-- Whether all children of a node of the kind are expressions. -/
def Kind.isOperation : Kind → Bool
  | .letBlock | .compTail => false
  | kind => !kind.isStatement

/-- Whether nodes of the kind ask nothing of their children but what their roles ask. -/
def Kind.isPlain (kind : Kind) : Bool :=
  !kind.isOperation && kind != .varList && kind != .function && kind != .breakStmt

namespace Head

variable {h h' p c c' : Head} {X Y : Reach}

/-- Whether a child of a node stands for a value there. -/
def values (p c : Head) : Bool := p.kind.isOperation || c.role.any Role.isExpression

theorem values_of_isOperation (hp : p.kind.isOperation) : p.values c := by simp [values, hp]

theorem values_of_role {role : Role} (hc : c.role = some role) (hrole : role.isExpression) :
    p.values c := by
  simp [values, hc, hrole]

theorem values_congr (hkind : h'.kind = h.kind) (hrole : c'.role = c.role) :
    h'.values c' = h.values c := by
  rw [values, values, hkind, hrole]

/-- A node can be a child of another one, as far as it matters where values are moved. -/
structure Admits (p c : Head) : Prop where
  operand : p.kind.isOperation → c.isExpression
  role : ∀ role, c.role = some role → role.isExpression → c.isExpression
  declaration : p.kind = .varList → c.kind = .declaration
  function : p.kind = .function → c.kind = .list ∨ c.kind = .script
  body : p.kind = .function → c.role = some .body → c.kind = .script
  jump : p.kind ≠ .breakStmt

theorem admits_of_isOperation (hp : p.kind.isOperation) (hc : c.isExpression) : p.Admits c := by
  refine ⟨fun _ => hc, fun _ _ _ => hc, ?_, ?_, ?_, ?_⟩
  all_goals
    intro hkind
    simp [hkind, Kind.isOperation, Kind.isStatement] at hp

theorem admits_of_isPlain (hp : p.kind.isPlain)
    (hrole : ∀ role, c.role = some role → role.isExpression → c.isExpression) : p.Admits c := by
  simp only [Kind.isPlain, Bool.and_eq_true, Bool.not_eq_true', bne_iff_ne] at hp
  obtain ⟨⟨⟨hoperation, hlist⟩, hfunction⟩, hjump⟩ := hp
  refine ⟨fun h => ?_, hrole, fun h => absurd h hlist, fun h => absurd h hfunction,
    fun h => absurd h hfunction, hjump⟩
  rw [hoperation] at h
  cases h

theorem admits_of_isDeclarationList (hp : p.kind.isDeclarationList) (hkind : c.kind = .declaration)
    (hrole : c.role = none) : p.Admits c := by
  refine ⟨?_, by simp [hrole], fun _ => hkind, ?_, by simp [hrole], ?_⟩
  all_goals
    intro hcase
    cases hlist : p.kind <;>
      simp [hlist, Kind.isDeclarationList, Kind.isOperation, Kind.isStatement] at hp hcase

theorem admits_of_function (hp : p.kind = .function)
    (hkind : c.kind = .list ∨ c.kind = .script) (hrole : c.role.any Role.isExpression = false)
    (hbody : c.role = some .body → c.kind = .script) : p.Admits c := by
  refine ⟨fun h => ?_, fun role hc h => ?_, fun h => ?_, fun _ => hkind, fun _ => hbody, ?_⟩
  · simp [hp, Kind.isOperation, Kind.isStatement] at h
  · rw [hc, Option.any_some, h] at hrole
    cases hrole
  · simp [hp] at h
  · simp [hp]

theorem Admits.congr (h : p.Admits c) (hkind : h'.kind = p.kind) : h'.Admits c where
  operand hp := h.operand (hkind ▸ hp)
  role := h.role
  declaration hp := h.declaration (hkind ▸ hp)
  function hp := h.function (hkind ▸ hp)
  body hp := h.body (hkind ▸ hp)
  jump hp := h.jump (hkind ▸ hp)

theorem Admits.isExpression (h : p.Admits c) (hc : p.values c) : c.isExpression := by
  simp only [values, Bool.or_eq_true, Option.any_eq_true] at hc
  rcases hc with hp | ⟨role, hrole, hexpression⟩
  · exact h.operand hp
  · exact h.role role hrole hexpression

/-- Jumps do not care for an expression around them, unless it is a function. -/
theorem inside_of_isExpression (h : c.isExpression) (hfunction : c.kind ≠ .function) :
    X.inside c = X.idle := by
  refine Reach.inside_of_isNeutral ?_
  cases hkind : c.kind <;> simp_all [isExpression, Kind.isStatement, Kind.isNeutral]

end Head

namespace Reach

variable {X Y : Reach} {p p' c c' : Head}

/-- The reach that a node leaves to a child. -/
def around (p c : Head) (X : Reach) : Reach :=
  if p.values c then (X.inside p).value else X.inside p

theorem around_le : X.around p c ≤ X.inside p := by
  rw [around]
  split
  · exact value_le
  · exact le_refl _

theorem around_of_values (h : p.values c) : X.around p c = (X.inside p).value := if_pos h

theorem around_of_not_values (h : p.values c = false) : X.around p c = X.inside p := by
  simp [around, h]

/-- A reach that is one of a value where it has to be. -/
theorem le_around (hle : Y ≤ X.inside p) (hvalued : p.values c → Y.valued) : Y ≤ X.around p c := by
  rw [around]
  split
  · exact le_value hle (hvalued ‹_›)
  · exact hle

/-- As a value, what is around a child is what is inside the node. -/
@[simp] theorem value_around : (X.around p c).value = (X.inside p).value := by
  rw [around]
  split <;> rfl

theorem valued_around (h : p.values c) : (X.around p c).valued := by
  rw [around_of_values h]
  rfl

theorem valued_of_le_around (hle : Y ≤ X.around p c) (h : p.values c) : Y.valued :=
  hle.valued (valued_around h)

theorem around_mono (p c : Head) (hle : X ≤ Y) : X.around p c ≤ Y.around p c :=
  le_around (around_le.trans (inside_mono p hle)) valued_around

theorem around_congr (hkind : p'.kind = p.kind) (htext : p.kind = .label → p'.text = p.text)
    (hrole : c'.role = c.role) : X.around p' c' = X.around p c := by
  rw [around, around, Head.values_congr hkind hrole, inside_congr hkind htext]

end Reach

/-! ### Trees -/

namespace Tree

/-- All nodes of a tree are allowed where they are. -/
inductive Fits : Reach → Tree → Prop where
  | node {X : Reach} {head : Head} {children : List Tree} (fits : head.FitsIn X)
      (admits : ∀ c ∈ children, head.Admits c.head)
      (below : ∀ c ∈ children, Fits (X.around head c.head) c) : Fits X (.node head children)

variable {X Y : Reach} {t c : Tree} {h : Head} {above : List Head}

theorem Fits.head (hfits : t.Fits X) : t.head.FitsIn X := by
  cases hfits with
  | node fits admits below => exact fits

theorem Fits.admits (hfits : t.Fits X) (hc : c ∈ t.children) : t.head.Admits c.head := by
  cases hfits with
  | node fits admits below => exact admits c hc

theorem Fits.child (hfits : t.Fits X) (hc : c ∈ t.children) : c.Fits (X.around t.head c.head) := by
  cases hfits with
  | node fits admits below => exact below c hc

theorem Fits.mono (hfits : t.Fits X) (hle : X ≤ Y) : t.Fits Y := by
  induction hfits generalizing Y with
  | node fits admits _ ih =>
      exact .node (fits.mono hle) admits fun c hc => ih c hc (Reach.around_mono _ _ hle)

/-- A node of a tree and the nodes above it, the nearest first. -/
inductive Stands : Tree → Head → List Head → Prop where
  | here {head : Head} {children : List Tree} : Stands (.node head children) head []
  | deeper {head h : Head} {children : List Tree} {above : List Head} {c : Tree}
      (mem : c ∈ children) (stands : Stands c h above) :
      Stands (.node head children) h (above ++ [head])

/-- The constructs around a node that are in the body of the same function. -/
def inBody (above : List Head) : List Head := above.takeWhile (·.kind ≠ .function)

/-- The nearest constructs are labels, down to one with the given name. -/
def Labelled (name : String) (above : List Head) : Prop :=
  ∃ labels label outer, above = labels ++ label :: outer ∧ (∀ l ∈ labels, l.kind = .label) ∧
    label.kind = .label ∧ label.text = name

/-- One of the constructs is a loop with the given label. -/
def LoopLabelled (name : String) (above : List Head) : Prop :=
  ∃ inner loop outer, above = inner ++ loop :: outer ∧ loop.kind.isLoop ∧ Labelled name outer

/-- Every jump has its target in the body of its own function, no label stands inside one of the
same name there, and what leaves a function is in one. -/
structure JumpsHaveTargets (t : Tree) : Prop where
  plainBreak : ∀ h above, t.Stands h above → h.kind = .breakStmt → h.text? = none →
    ∃ a ∈ inBody above, a.kind.isLoop ∨ a.kind = .switchCase
  plainContinue : ∀ h above, t.Stands h above → h.kind = .continueStmt → h.text? = none →
    ∃ a ∈ inBody above, a.kind.isLoop
  namedBreak : ∀ h above name, t.Stands h above → h.kind = .breakStmt → h.text? = some name →
    ∃ a ∈ inBody above, a.kind = .label ∧ a.text = name
  namedContinue : ∀ h above name, t.Stands h above → h.kind = .continueStmt →
    h.text? = some name → LoopLabelled name (inBody above)
  label : ∀ h above, t.Stands h above → h.kind = .label →
    ∀ a ∈ inBody above, a.kind = .label → a.text ≠ h.text
  leaving : ∀ h above, t.Stands h above → h.kind = .returnStmt ∨ h.kind = .yieldOf →
    ∃ a ∈ above, a.kind = .function

end Tree

/-! ### What a reach says -/

namespace Reach

open ScriptMin.Tree

variable {X : Reach} {h : Head} {above : List Head} {name : String}

/-- What a reach allows is there among the constructs around. -/
structure Describes (X : Reach) (above : List Head) : Prop where
  breaks : X.breaks → ∃ a ∈ inBody above, a.kind.isLoop ∨ a.kind = .switchCase
  continues : X.continues → ∃ a ∈ inBody above, a.kind.isLoop
  returns : X.returns → ∃ a ∈ above, a.kind = .function
  labels : ∀ name, name ∈ X.labels ↔ ∃ a ∈ inBody above, a.kind = .label ∧ a.text = name
  loops : ∀ name ∈ X.loops, LoopLabelled name (inBody above)
  own : ∀ name ∈ X.own, Labelled name (inBody above)

theorem inBody_cons (hkind : h.kind ≠ .function) : inBody (h :: above) = h :: inBody above := by
  simp [inBody, hkind]

theorem inBody_function (hkind : h.kind = .function) : inBody (h :: above) = [] := by
  simp [inBody, hkind]

theorem exists_mem_cons {P : Head → Prop} (hex : ∃ a ∈ above, P a) : ∃ a ∈ h :: above, P a := by
  obtain ⟨a, ha, hP⟩ := hex
  exact ⟨a, List.mem_cons_of_mem _ ha, hP⟩

theorem loopLabelled_cons (hloop : LoopLabelled name above) : LoopLabelled name (h :: above) := by
  obtain ⟨inner, loop, outer, rfl, hrest⟩ := hloop
  exact ⟨h :: inner, loop, outer, rfl, hrest⟩

theorem labelled_cons (hkind : h.kind = .label) (hlabel : Labelled name above) :
    Labelled name (h :: above) := by
  obtain ⟨labels, label, outer, rfl, hlabels, hrest⟩ := hlabel
  exact ⟨h :: labels, label, outer, rfl, List.forall_mem_cons.mpr ⟨hkind, hlabels⟩, hrest⟩

variable (hX : X.Describes above)
include hX

/-- What is around a node is around what is in it. -/
theorem Describes.idle (hfunction : h.kind ≠ .function) (hlabel : h.kind ≠ .label) :
    X.idle.Describes (h :: above) := by
  refine ⟨?_, ?_, fun hreturns => exists_mem_cons (hX.returns hreturns), ?_, ?_, nofun⟩
  all_goals rw [inBody_cons hfunction]
  · exact fun hbreaks => exists_mem_cons (hX.breaks hbreaks)
  · exact fun hcontinues => exists_mem_cons (hX.continues hcontinues)
  · intro name
    simp only [List.mem_cons, exists_eq_or_imp, hlabel, false_and, false_or]
    exact hX.labels name
  · exact fun name hname => loopLabelled_cons (hX.loops name hname)

theorem Describes.loop (hloop : h.kind.isLoop) : (X.inside h).Describes (h :: above) := by
  have hfunction : h.kind ≠ .function := by
    rintro hkind
    simp [hkind, Kind.isLoop] at hloop
  have hlabel : h.kind ≠ .label := by
    rintro hkind
    simp [hkind, Kind.isLoop] at hloop
  have hidle := hX.idle hfunction hlabel
  rw [inside_of_isLoop hloop]
  refine ⟨?_, ?_, hidle.returns, hidle.labels, ?_, hidle.own⟩
  all_goals rw [inBody_cons hfunction]
  · exact fun _ => ⟨h, List.mem_cons_self, .inl hloop⟩
  · exact fun _ => ⟨h, List.mem_cons_self, hloop⟩
  · intro name hname
    rcases List.mem_append.mp hname with hown | hname
    · exact ⟨[], h, inBody above, rfl, hloop, hX.own name hown⟩
    · exact loopLabelled_cons (hX.loops name hname)

theorem Describes.label (hkind : h.kind = .label) : (X.inside h).Describes (h :: above) := by
  have hinside : X.inside h =
      { X with labels := h.text :: X.labels, own := h.text :: X.own } := by
    simp [inside, hkind, Kind.isLoop]
  rw [hinside]
  refine ⟨?_, ?_, fun hreturns => exists_mem_cons (hX.returns hreturns), ?_, ?_, ?_⟩
  all_goals rw [inBody_cons (by simp [hkind])]
  · exact fun hbreaks => exists_mem_cons (hX.breaks hbreaks)
  · exact fun hcontinues => exists_mem_cons (hX.continues hcontinues)
  · intro name
    simp only [List.mem_cons, exists_eq_or_imp, hkind, true_and]
    rw [hX.labels name, eq_comm]
  · exact fun name hname => loopLabelled_cons (hX.loops name hname)
  · intro name hname
    rcases List.mem_cons.mp hname with rfl | hname
    · exact ⟨[], h, inBody above, rfl, List.forall_mem_nil _, hkind, rfl⟩
    · exact labelled_cons hkind (hX.own name hname)

/-- The reach inside a node describes what is around there. -/
theorem Describes.inside (h : Head) : (X.inside h).Describes (h :: above) := by
  by_cases hloop : h.kind.isLoop
  · exact hX.loop hloop
  · by_cases hlabel : h.kind = .label
    · exact hX.label hlabel
    · rw [Reach.inside, if_neg hloop]
      split
      case h_1 hkind =>
          have hfunction : h.kind ≠ .function := by simp [hkind]
          have hidle := hX.idle hfunction hlabel
          refine ⟨?_, hidle.continues, hidle.returns, hidle.labels, hidle.loops, hidle.own⟩
          rw [inBody_cons hfunction]
          exact fun _ => ⟨h, List.mem_cons_self, .inr hkind⟩
      case h_2 hkind => exact absurd hkind hlabel
      case h_3 hkind =>
          refine ⟨nofun, nofun, fun _ => ⟨h, List.mem_cons_self, hkind⟩, ?_, nofun, nofun⟩
          simp [inBody_function hkind]
      case h_4 hfunction => exact hX.idle hfunction hlabel

omit hX in
/-- The reach below a line of nodes. -/
theorem describes_foldr (above : List Head) : (above.foldr Reach.inside {}).Describes above := by
  induction above with
  | nil => exact ⟨nofun, nofun, nofun, by simp [inBody], nofun, nofun⟩
  | cons h rest ih => exact ih.inside h

end Reach

namespace Tree

variable {X : Reach} {t : Tree} {h : Head} {above : List Head}

theorem Fits.fitsIn_of_stands (hfits : t.Fits X) (hstands : t.Stands h above) :
    h.FitsIn (above.foldr Reach.inside X) := by
  induction hstands generalizing X with
  | here => exact hfits.head
  | deeper mem _ ih =>
      rw [List.foldr_append]
      exact ih ((hfits.child mem).mono Reach.around_le)

/-- If every node of a tree is allowed where it is, all jumps have their targets. -/
theorem Fits.jumpsHaveTargets (hfits : t.Fits {}) : t.JumpsHaveTargets where
  plainBreak _ above hstands hkind htext :=
    (Reach.describes_foldr above).breaks ((hfits.fitsIn_of_stands hstands).plainBreak hkind htext)
  plainContinue _ above hstands hkind htext :=
    (Reach.describes_foldr above).continues
      ((hfits.fitsIn_of_stands hstands).plainContinue hkind htext)
  namedBreak _ above name hstands hkind htext :=
    ((Reach.describes_foldr above).labels name).mp
      ((hfits.fitsIn_of_stands hstands).namedBreak name hkind htext)
  namedContinue _ above name hstands hkind htext :=
    (Reach.describes_foldr above).loops name
      ((hfits.fitsIn_of_stands hstands).namedContinue name hkind htext)
  label h above hstands hkind a ha hlabel htext :=
    (hfits.fitsIn_of_stands hstands).label hkind
      (((Reach.describes_foldr above).labels h.text).mpr ⟨a, ha, hlabel, htext⟩)
  leaving _ above hstands hkind :=
    (Reach.describes_foldr above).returns ((hfits.fitsIn_of_stands hstands).leaving hkind)

end Tree

end ScriptMin
