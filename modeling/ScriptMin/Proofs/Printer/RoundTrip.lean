import ScriptMin.Proofs.Grammar.Literals
import ScriptMin.Proofs.Printer.Wording

/-!
Ordinary expressions survive being written and read. The printer puts parentheses where a
number for how tightly an expression binds is too small, the grammar is a ladder of
productions. Both agree: the grammar reads the pieces of an expression, wherever the printer
has put them, as that expression.
-/

namespace ScriptMin

open ScriptMin.Grammar ScriptMin.Printer ScriptMin.Stream Text

/-! ### The atoms of an expression -/

namespace Tree

def atoms (options : PrintOptions) (t : Tree) (shy : Bool := false) : List Atom :=
  (t.pieces options shy).map Piece.atom

/-- The tokens of an expression in a place that asks for a precedence. -/
def atomsWithin (options : PrintOptions) (least : Nat) (t : Tree) (shy : Bool := false) :
    List Atom :=
  (t.piecesWithin options least shy).map Piece.atom

variable {options : PrintOptions} {shy : Bool} {t : Tree} {least : Nat}

theorem map_inParens (ps : List Piece) :
    (inParens ps).map Piece.atom =
      .sign .openParen :: (ps.map Piece.atom ++ [.sign .closeParen]) := by
  simp [inParens, Piece.atom, Atom.sign]

theorem atomsWithin_of_enclosed (h : Enclosed least shy t) :
    t.atomsWithin options least shy =
      .sign .openParen :: (t.atoms options ++ [.sign .closeParen]) := by
  rw [atomsWithin, piecesWithin_of_enclosed h, map_inParens, atoms]

theorem atomsWithin_of_not_enclosed (h : ¬ Enclosed least shy t) :
    t.atomsWithin options least shy = t.atoms options shy := by
  rw [atomsWithin, piecesWithin_of_not_enclosed h, atoms]

theorem map_commaRest (spaced : Bool) (pss : List (List Piece)) :
    (commaRest spaced pss).map Piece.atom = commaAtoms (pss.map (·.map Piece.atom)) := by
  induction pss with
  | nil => rfl
  | cons ps pss ih =>
      rw [commaRest, List.map_cons, List.map_append, ih, List.map_cons, commaAtoms_cons]
      rfl

theorem map_commaList (spaced : Bool) (pss : List (List Piece)) :
    (commaList spaced pss).map Piece.atom = itemAtoms (pss.map (·.map Piece.atom)) := by
  cases pss with
  | nil => rfl
  | cons ps pss => rw [commaList, List.map_append, map_commaRest, List.map_cons, itemAtoms]

theorem map_itemPieces (ts : List Tree) :
    (itemPieces options ts shy).map Piece.atom =
      itemAtoms (ts.map fun t => t.atomsWithin options Precedence.assignment shy) := by
  rw [itemPieces, map_commaList, List.map_map]
  rfl

end Tree

namespace Printer

variable {options : PrintOptions} {line : Nat} {shy : Bool} {t : Tree}

/-! ### Words and operators -/

theorem propertyName?_wordKind (name : String) : (wordKind name).propertyName? = some name := by
  unfold wordKind
  split
  case h_1 word hword =>
      have htext := List.find?_some hword
      exact congrArg some (beq_iff_eq.mp htext)
  case h_2 => rfl

theorem wordKind_of_not_isReserved {name : String} (h : isReserved name = false) :
    wordKind name = .identifier name := by
  have hnone : Keyword.ofText? name = none := by simpa [isReserved] using h
  rw [wordKind, hnone]

theorem admits_word (name : String) (operand : Bool) :
    Atom.admits ⟨wordKind name, none⟩ operand := by
  unfold wordKind
  split <;> rfl

theorem binaryOperator?_operatorPiece {kind : Kind} (h : kind.isBinary) :
    binaryOperator? (operatorPiece kind).atom.kind = some (Precedence.of kind - 4, kind) := by
  cases kind <;> cases h <;> rfl

theorem unaryOperator?_operatorPiece {kind : Kind} (h : kind.isUnary) :
    unaryOperator? (operatorPiece kind).atom.kind = some kind ∧ (operatorPiece kind).atom.opens := by
  cases kind <;> cases h <;> exact ⟨rfl, rfl⟩

theorem updateOperator?_operatorPiece {kind : Kind} (h : kind = .increment ∨ kind = .decrement) :
    updateOperator? (operatorPiece kind).atom.kind = some kind ∧
      (operatorPiece kind).atom.opens := by
  rcases h with rfl | rfl <;> exact ⟨rfl, rfl⟩

theorem assignPiece_atom {op : Option Kind} (h : ∀ kind ∈ op, kind.isCompound) :
    (assignPiece op).atom.kind = .punctuator .assign ∧
      ((assignPiece op).atom.op.bind fun p => binaryOperator? (.punctuator p)).map (·.2) = op := by
  cases op with
  | none => exact ⟨rfl, rfl⟩
  | some kind =>
      have hkind := h kind rfl
      cases kind <;> cases hkind <;> exact ⟨rfl, rfl⟩

theorem precedence_binary {kind : Kind} (h : kind.isBinary) :
    4 ≤ Precedence.of kind ∧ Precedence.of kind ≤ 13 := by
  cases kind <;> cases h <;> decide

theorem isBinary_of_precedence {kind : Kind} :
    4 ≤ Precedence.of kind → Precedence.of kind ≤ 13 → kind.isBinary := by
  cases kind <;> decide

theorem precedence_reference (h : t.isReference) : 17 ≤ Precedence.of t.kind := by
  simp only [Tree.isReference] at h
  generalize t.kind = kind at h
  cases kind <;> cases h <;> decide

theorem precedence_pattern (h : t.isPattern) : Precedence.of t.kind = 18 := by
  simp only [Tree.isPattern] at h
  generalize t.kind = kind at h
  cases kind <;> cases h <;> rfl

theorem one_le_precedence (kind : Kind) : 1 ≤ Precedence.of kind := by
  cases kind <;> decide

/-! ### Reading the pieces of an expression -/

/-- The grammar reads the pieces of a tree as the tree in every place where the printer writes
it without parentheses. No place asks for a conditional expression and nothing looser. -/
structure Rereads (options : PrintOptions) (line : Nat) (t : Tree) : Prop where
  bare : ∀ shy least, 1 ≤ least → least ≤ 17 → least ≠ 3 → ¬ Enclosed least shy t →
    Derives line shy least t.Same (t.atoms options shy)
  binary : t.kind.isBinary → ∀ shy, (t.kind = .isIn → shy = false) →
    ∀ n, Precedence.of t.kind + n = 13 → BinaryChain line shy n t (t.atoms options shy)
  member : ∀ shy calls, (calls = true ∨ chainHasCall t = false) → 17 ≤ Precedence.of t.kind →
    MemberChain line shy calls t.Same (t.atoms options shy)
  pattern : t.isPattern → ∀ shy, Derives line shy 17 t.SameBare (t.atoms options shy)

namespace Rereads

theorem derives (h : Rereads options line t) (least : Nat) (hleast : 1 ≤ least)
    (hmost : least ≤ 17) (hne : least ≠ 3) (hprec : least ≤ Precedence.of t.kind) :
    Derives line false least t.Same (t.atoms options) :=
  h.bare false least hleast hmost hne (not_enclosed hprec fun _ => rfl)

theorem primary_inParens (h : Rereads options line t) :
    Primary line t.Same (.sign .openParen :: (t.atoms options ++ [.sign .closeParen])) :=
  primary_parens (h.derives 1 (by omega) (by omega) (by omega) (one_le_precedence t.kind))

theorem within (h : Rereads options line t) {least : Nat} (hleast : 1 ≤ least ∧ least ≤ 17)
    (hne : least ≠ 3) : Derives line shy least t.Same (t.atomsWithin options least shy) := by
  by_cases henclosed : Enclosed least shy t
  · rw [Tree.atomsWithin_of_enclosed henclosed]
    exact h.primary_inParens.derives.lower hleast.2 hleast.1
  · rw [Tree.atomsWithin_of_not_enclosed henclosed]
    exact h.bare shy least hleast.1 hleast.2 hne henclosed

/-- The left operand of an operator may be a chain of operators of the same level. -/
theorem leftOperand (h : Rereads options line t) {n : Nat} (hn : n < binaryLevels) :
    BinaryChain line shy n t (t.atomsWithin options (13 - n) shy) := by
  simp only [binaryLevels] at hn
  by_cases henclosed : Enclosed (13 - n) shy t
  · rw [Tree.atomsWithin_of_enclosed henclosed]
    exact .of_operand hn (h.primary_inParens.derives.lower (by omega) (by omega))
  · have hle := Nat.le_of_not_lt fun hlow => henclosed (.inl hlow)
    have hin : t.kind = .isIn → shy = false :=
      fun hkind => by simpa using fun hshy => henclosed (.inr ⟨hkind, hshy⟩)
    rw [Tree.atomsWithin_of_not_enclosed henclosed]
    by_cases hsame : Precedence.of t.kind = 13 - n
    · have hbinary : t.kind.isBinary := isBinary_of_precedence (by omega) (by omega)
      exact h.binary hbinary shy hin n (by omega)
    · exact .of_operand hn (h.bare shy _ (by omega) (by omega) (by omega)
        (not_enclosed (by omega) hin))

theorem object (h : Rereads options line t) {calls : Bool}
    (hcall : calls = true ∨ chainHasCall t = false) :
    MemberChain line shy calls t.Same (t.atomsWithin options Precedence.member shy) := by
  by_cases henclosed : Enclosed Precedence.member shy t
  · rw [Tree.atomsWithin_of_enclosed henclosed]
    exact h.primary_inParens.memberChain calls
  · rw [Tree.atomsWithin_of_not_enclosed henclosed]
    exact h.member shy calls hcall (Nat.le_of_not_lt fun hlow => henclosed (.inl hlow))

theorem dotObject (h : Rereads options line t) {calls : Bool}
    (hcall : calls = true ∨ chainHasCall t = false) :
    MemberChain line shy calls t.Same (((t.asPart options).asObject shy).map Piece.atom) := by
  unfold Part.asObject
  split
  case isTrue hbare =>
      have htight : t.kind = .number := by
        simp only [Site.isBareInteger, Bool.and_eq_true, beq_iff_eq] at hbare
        exact hbare.1.1
      have hnot : ¬ Enclosed Precedence.comma shy t :=
        not_enclosed (htight ▸ by decide) fun hkind => by simp [htight] at hkind
      rw [Tree.map_inParens]
      exact (primary_parens (h.bare shy 1 (by omega) (by omega) (by omega) hnot)).memberChain calls
  case isFalse => exact h.object hcall

theorem callee (h : Rereads options line t) :
    MemberChain line shy false t.Same (((t.asPart options).asCallee shy).map Piece.atom) := by
  unfold Part.asCallee
  split
  case isTrue =>
      rw [Tree.map_inParens]
      exact (primary_parens (h.within (by decide) (by decide))).memberChain false
  case isFalse hbare =>
      rw [not_or] at hbare
      exact h.member shy false (.inr (by simpa [Tree.asPart] using hbare.2))
        (Nat.le_of_not_lt hbare.1)

/-! ### One lemma for each form -/

theorem of_level {level : Nat} (hnot : t.kind.isBinary = false)
    (hmember : Precedence.of t.kind < 17)
    (hlevel : ∀ least, least ≠ 3 → least ≤ Precedence.of t.kind → least ≤ level)
    (h : ∀ shy, Derives line shy level t.Same (t.atoms options shy)) : Rereads options line t where
  bare shy least hleast hmost hne henclosed :=
    (h shy).lower (hlevel least hne (Nat.le_of_not_lt fun hlow => henclosed (.inl hlow))) hleast
  binary hbinary := by
    rw [hnot] at hbinary
    cases hbinary
  member shy calls _ hprec := by omega
  pattern hpattern := by
    have htight := precedence_pattern hpattern
    omega

theorem of_member (hprec : 17 ≤ Precedence.of t.kind)
    (h : ∀ shy calls, (calls = true ∨ chainHasCall t = false) →
      MemberChain line shy calls t.Same (t.atoms options shy))
    (hpattern : t.isPattern → ∀ shy, Derives line shy 17 t.SameBare (t.atoms options shy)) :
    Rereads options line t where
  bare shy least hleast hmost _ _ := (h shy true (.inl rfl)).derives.lower hmost hleast
  binary hbinary := by
    have hle := (precedence_binary hbinary).2
    omega
  member shy calls hcall _ := h shy calls hcall
  pattern := hpattern

theorem of_primary (hprec : 17 ≤ Precedence.of t.kind)
    (h : ∀ shy, Primary line t.SameBare (t.atoms options shy)) : Rereads options line t :=
  .of_member hprec (fun shy calls _ => ((h shy).mono fun _ hsame => hsame.1).memberChain calls)
    fun _ shy => (h shy).derives

variable {span listSpan : Span}

theorem binaryOperator {kind : Kind} {left right : Tree} (hkind : kind.isBinary)
    (hleft : Rereads options line left) (hright : Rereads options line right) :
    Rereads options line (.ofList kind span [left, right]) := by
  obtain ⟨hlow, hhigh⟩ := precedence_binary hkind
  have hchain : ∀ shy, (kind = .isIn → shy = false) → ∀ n, Precedence.of kind + n = 13 →
      BinaryChain line shy n (.ofList kind span [left, right])
        ((Tree.ofList kind span [left, right]).atoms options shy) := by
    intro shy hin n hn
    have hlevel : Precedence.of kind - 4 + n + 1 = binaryLevels := by
      simp only [binaryLevels]
      omega
    have hpieces : (Tree.ofList kind span [left, right]).atoms options shy =
        left.atomsWithin options (13 - n) shy ++ (operatorPiece kind).atom ::
          right.atomsWithin options (14 - n) shy := by
      have heq : 13 - n = Precedence.of kind := by omega
      have heq' : 14 - n = Precedence.of kind + 1 := by omega
      rw [heq, heq', Tree.atoms, Tree.pieces_binary hkind, List.map_append, List.map_cons]
      rfl
    rw [hpieces]
    exact (hleft.leftOperand (by omega)).operator hlevel (binaryOperator?_operatorPiece hkind) hin
      (hright.within (by omega) (by omega)) span
  refine ⟨fun shy least hleast _ _ henclosed => ?_, fun _ => hchain, fun _ _ _ hmember => ?_, ?_⟩
  · have hprec : least ≤ Precedence.of kind := Nat.le_of_not_lt fun hlow => henclosed (.inl hlow)
    have hin : kind = .isIn → shy = false :=
      fun hkind => by simpa using fun hshy => henclosed (.inr ⟨hkind, hshy⟩)
    have hderives := (hchain shy hin (13 - Precedence.of kind) (by omega)).derives
      (by simp only [binaryLevels]; omega)
    rw [show 13 - (13 - Precedence.of kind) = Precedence.of kind by omega] at hderives
    exact hderives.lower hprec hleast
  · exact absurd (show 17 ≤ Precedence.of kind from hmember) (by omega)
  · intro hpattern
    have htight : Precedence.of kind = 18 := precedence_pattern hpattern
    omega

theorem unary {kind : Kind} {operand : Tree} (hkind : kind.isUnary)
    (h : Rereads options line operand) : Rereads options line (.ofList kind span [operand]) := by
  obtain ⟨hop, hopens⟩ := unaryOperator?_operatorPiece hkind
  have hprec : Precedence.of kind = 14 ∧ kind.isBinary = false := by
    cases kind <;> cases hkind <;> exact ⟨rfl, rfl⟩
  refine .of_level hprec.2 (hprec.1 ▸ (show 14 < 17 by omega))
    (fun least _ hle => (hprec.1 ▸ hle : least ≤ 14)) fun shy => ?_
  rw [Tree.atoms, Tree.pieces_unary hkind, List.map_cons]
  exact derives_unary hop hopens (h.within (by decide) (by decide)) span

theorem tight_of_isReference (hreference : t.isReference) {least : Nat} (hleast : least ≤ 17) :
    ¬ Enclosed least shy t := by
  have htight := precedence_reference hreference
  refine not_enclosed (by omega) fun hkind => ?_
  rw [hkind] at htight
  exact absurd htight (by decide)

theorem update {kind : Kind} {operand : Tree} (hkind : kind = .increment ∨ kind = .decrement)
    (trailing : Bool) (hreference : operand.isReference) (h : Rereads options line operand) :
    Rereads options line (.node { kind, span, flags := { trailing } } [operand]) := by
  obtain ⟨hop, hopens⟩ := updateOperator?_operatorPiece hkind
  have hprec : Precedence.of kind = 14 ∧ kind.isBinary = false := by
    rcases hkind with rfl | rfl <;> exact ⟨rfl, rfl⟩
  refine .of_level hprec.2 (hprec.1 ▸ (show 14 < 17 by omega))
    (fun least _ hle => (hprec.1 ▸ hle : least ≤ 14)) fun shy => ?_
  rw [Tree.atoms, Tree.pieces_update hkind]
  cases trailing with
  | true =>
      have htight : ¬ Enclosed Precedence.trailing shy operand :=
        tight_of_isReference hreference (by decide)
      rw [if_pos rfl, Tree.piecesWithin_of_not_enclosed htight, List.map_append]
      exact derives_trailing hop hreference
        (h.bare shy 17 (by omega) (by omega) (by omega) (tight_of_isReference hreference le_rfl)) span
  | false =>
      exact derives_update hop hopens hreference (h.within (by decide) (by decide)) span

/-- What can be assigned to is read as something that can be assigned to. -/
theorem target (h : Rereads options line t) {op : Option Kind} (htarget : t.isTarget op)
    (shy : Bool) :
    ∃ φ, Derives line shy 17 φ (t.atomsWithin options Precedence.trailing shy) ∧
      ∀ t', φ t' → t.Same t' ∧ isAssignable op t' := by
  simp only [Tree.isTarget, Bool.or_eq_true, Bool.and_eq_true, Option.isNone_iff_eq_none] at htarget
  rcases htarget with hreference | ⟨rfl, hpattern⟩
  · rw [Tree.atomsWithin_of_not_enclosed (tight_of_isReference hreference (by decide))]
    exact ⟨_, h.bare shy 17 (by omega) (by omega) (by omega) (tight_of_isReference hreference le_rfl),
      fun t' hsame => ⟨hsame, isAssignable_of_isReference hsame hreference op⟩⟩
  · have hkind : t.kind = .arrayInit ∨ t.kind = .objectInit := by
      simp only [Tree.isPattern] at hpattern
      generalize t.kind = kind at hpattern
      cases kind <;> cases hpattern <;> simp
    have htight : ¬ Enclosed Precedence.trailing shy t := by
      rcases hkind with hkind | hkind <;> simp [Enclosed, hkind] <;> decide
    rw [Tree.atomsWithin_of_not_enclosed htight]
    refine ⟨_, h.pattern hpattern shy, fun t' hread => ⟨hread.1, ?_⟩⟩
    rcases hkind with hkind | hkind <;>
      simp [isAssignable, Target.of, hread.1.kind, hkind, hread.2]

theorem assign {op : Option Kind} {target value : Tree} (hop : ∀ kind ∈ op, kind.isCompound)
    (hassignable : target.isTarget op) (htarget : Rereads options line target)
    (hvalue : Rereads options line value) :
    Rereads options line (.node { kind := .assign, span, assignOp := op } [target, value]) := by
  obtain ⟨hsign, hsignOp⟩ := assignPiece_atom hop
  refine .of_level rfl (show 2 < 17 by omega) (fun least _ hle => (hle : least ≤ 2)) fun shy => ?_
  obtain ⟨φ, hleft, hread⟩ := htarget.target hassignable shy
  rw [Tree.atoms, Tree.pieces_assign, List.map_append, List.map_cons]
  exact derives_assign hsign hsignOp (hleft.lower (by omega) (by omega)) hread
    (hvalue.within (by decide) (by decide)) span

theorem conditional {condition thenPart elsePart : Tree}
    (hcondition : Rereads options line condition) (hthen : Rereads options line thenPart)
    (helse : Rereads options line elsePart) :
    Rereads options line (.ofList .conditional span [condition, thenPart, elsePart]) := by
  have hlevel : ∀ least, least ≠ 3 → least ≤ 3 → least ≤ 2 := by omega
  refine .of_level rfl (show 3 < 17 by omega) hlevel fun shy => ?_
  rw [Tree.atoms, Tree.pieces_conditional]
  simp only [List.map_append, List.map_cons]
  exact derives_conditional (hcondition.within (by decide) (by decide))
    (hthen.within (by decide) (by decide)) (helse.within (by decide) (by decide)) span

theorem items {ts : List Tree} (h : ∀ t ∈ ts, Rereads options line t) :
    List.Forall₂ (fun t => Derives line shy 2 t.Same) ts
      (ts.map fun t => t.atomsWithin options Precedence.assignment shy) := by
  rw [List.forall₂_map_right_iff, List.forall₂_same]
  exact fun t ht => (h t ht).within (by decide) (by decide)

theorem comma {parts : List Tree} (hlength : 2 ≤ parts.length)
    (h : ∀ t ∈ parts, Rereads options line t) :
    Rereads options line (.ofList .comma span parts) := by
  refine .of_level rfl (show 1 < 17 by omega) (fun least _ hle => (hle : least ≤ 1)) fun shy => ?_
  rw [Tree.atoms, Tree.pieces_items (.inr rfl), Tree.map_itemPieces]
  match parts with
  | first :: second :: rest =>
      have hitems : List.Forall₂ (fun t : Tree => Derives line shy 2 t.Same) _ _ := items h
      rw [List.map_cons, List.forall₂_cons] at hitems
      exact derives_comma hitems.1 hitems.2 (List.cons_ne_nil second rest) span

theorem dot {object : Tree} (h : Rereads options line object) (name : String) :
    Rereads options line (.ofList .dot span [object, .identifier name listSpan]) := by
  refine .of_member (show 17 ≤ 17 by omega) (fun shy calls hcall => ?_) nofun
  rw [Tree.atoms, Tree.pieces_dot, List.map_append]
  exact (h.dotObject hcall).dot (admits_word name false) (propertyName?_wordKind name) span listSpan

theorem index {object position : Tree} (hobject : Rereads options line object)
    (hposition : Rereads options line position) :
    Rereads options line (.ofList .index span [object, position]) := by
  refine .of_member (show 17 ≤ 17 by omega) (fun shy calls hcall => ?_) nofun
  rw [Tree.atoms, Tree.pieces_index]
  simp only [List.map_append, List.map_cons, List.map_nil]
  exact (hobject.object hcall).index (hposition.within (by decide) (by decide)) span

theorem call {callee : Tree} {args : List Tree} (hcallee : Rereads options line callee)
    (hargs : ∀ t ∈ args, Rereads options line t) :
    Rereads options line (.ofList .call span [callee, .ofList .list listSpan args]) := by
  refine .of_member (show 17 ≤ 17 by omega) (fun shy calls hcall => ?_) nofun
  obtain rfl : calls = true := hcall.resolve_right nofun
  rw [Tree.atoms, Tree.pieces_call, List.map_append, Tree.map_inParens, Tree.map_itemPieces]
  exact (hcallee.object (.inl rfl)).call (items hargs) span listSpan

theorem newBare {callee : Tree} (h : Rereads options line callee) :
    Rereads options line (.ofList .newBare span [callee]) := by
  refine .of_level rfl (show 16 < 17 by omega) (fun least _ hle => (hle : least ≤ 16)) fun shy => ?_
  rw [Tree.atoms, Tree.pieces_newBare, List.map_cons]
  exact derives_newBare h.callee span

theorem newArgs {callee : Tree} {args : List Tree} (hcallee : Rereads options line callee)
    (hargs : ∀ t ∈ args, Rereads options line t) :
    Rereads options line (.ofList .newArgs span [callee, .ofList .list listSpan args]) := by
  refine .of_member (show 17 ≤ 17 by omega) (fun shy calls _ => ?_) nofun
  rw [Tree.atoms, Tree.pieces_newArgs, List.map_cons, List.map_append, Tree.map_inParens,
    Tree.map_itemPieces]
  exact hcallee.callee.newArgs (items hargs) span listSpan

/-- A hole is nothing between two commas, and the last one has a comma behind it. -/
theorem elementAtoms {elements : List Tree}
    (h : ∀ t ∈ elements, t.kind ≠ .hole → Rereads options line t)
    (hholes : ∀ t ∈ elements, t.kind = .hole → ∃ span, t = .hole span) (shy : Bool) :
    ElementAtoms line shy elements ((Tree.itemPieces options elements shy ++
      (if elements.getLast?.any (Tree.kind · == .hole) then [Piece.comma false] else [])).map
        Piece.atom) := by
  induction elements with
  | nil => exact .nil
  | cons t ts ih =>
      have hrest := ih (fun s hs => h s (List.mem_cons_of_mem t hs))
        fun s hs => hholes s (List.mem_cons_of_mem t hs)
      by_cases hkind : t.kind = .hole
      · obtain ⟨span, rfl⟩ := hholes t List.mem_cons_self hkind
        cases ts with
        | nil => exact .hole .nil
        | cons next ts => exact .hole hrest
      · have ht : Derives line shy 2 t.Same _ :=
          (h t List.mem_cons_self hkind).within (show 1 ≤ 2 ∧ 2 ≤ 17 by decide) (by decide)
        cases ts with
        | nil =>
            simp only [Tree.itemPieces, commaList, commaRest, List.map_cons, List.map_nil,
              List.getLast?_singleton, Option.any_some, beq_iff_eq, hkind, if_false, List.append_nil]
            exact .last ht
        | cons next ts =>
            have hpieces : Tree.itemPieces options (t :: next :: ts) shy =
                t.piecesWithin options Precedence.assignment shy ++
                  .comma options.formatting.comma :: Tree.itemPieces options (next :: ts) shy := rfl
            rw [hpieces, List.append_assoc, List.cons_append, List.map_append, List.map_cons,
              List.getLast?_cons_cons]
            exact .cons ht hrest

theorem arrayInit {elements : List Tree}
    (h : ∀ t ∈ elements, t.kind ≠ .hole → Rereads options line t)
    (hholes : ∀ t ∈ elements, t.kind = .hole → ∃ span, t = .hole span) :
    Rereads options line (.ofList .arrayInit span elements) := by
  refine .of_primary (show 17 ≤ 18 by omega) fun shy => ?_
  rw [Tree.atoms, Tree.pieces_arrayInit, List.map_cons, List.map_append]
  exact primary_arrayInit (elementAtoms h hholes shy) span

theorem keyAtom {key : Tree} (h : key.IsKey options) (shy : Bool) :
    ∃ a, (key.pieces options shy).map Piece.atom = [a] ∧ KeyAtom key a := by
  cases h with
  | @name name => exact ⟨_, rfl, .word (propertyName?_wordKind name)⟩
  | string => exact ⟨_, rfl, .string rfl⟩
  | number => exact ⟨_, rfl, .number rfl⟩

theorem fieldAtoms {f : Tree.Field} (hkey : f.key.IsKey options)
    (hvalue : Rereads options line f.value) :
    FieldAtoms line shy f.tree (f.tree.atoms options shy) := by
  have hvalue' : Derives line shy 2 f.value.Same _ :=
    hvalue.within (show 1 ≤ 2 ∧ 2 ≤ 17 by decide) (by decide)
  obtain ⟨a, ha, hatom⟩ := keyAtom hkey shy
  rw [Tree.atoms, Tree.pieces_field, List.map_append, ha]
  exact .field hatom hvalue'

theorem objectInit {fields : List Tree.Field} (hkeys : ∀ f ∈ fields, f.key.IsKey options)
    (h : ∀ f ∈ fields, Rereads options line f.value) :
    Rereads options line (.ofList .objectInit span (fields.map Tree.Field.tree)) := by
  refine .of_primary (show 17 ≤ 18 by omega) fun shy => ?_
  have hfields : List.Forall₂ (FieldAtoms line shy) (fields.map Tree.Field.tree)
      (fields.map fun f => f.tree.atoms options shy) := by
    rw [List.forall₂_map_left_iff, List.forall₂_map_right_iff, List.forall₂_same]
    exact fun f hf => fieldAtoms (hkeys f hf) (h f hf)
  rw [Tree.atoms, Tree.pieces_objectInit, List.map_cons, List.map_append, Tree.map_commaList]
  simp only [List.map_map]
  exact primary_objectInit hfields span

end Rereads

/-- The grammar reads the pieces of every expression as that expression. -/
theorem rereads_of_isExpression (h : t.IsExpression options) (line : Nat) :
    Rereads options line t := by
  induction h with
  | @identifier name span _ hreserved =>
      refine .of_primary (show 17 ≤ 18 by omega) fun shy => ?_
      have hatoms : (Tree.identifier name span).atoms options shy = [⟨wordKind name, none⟩] := rfl
      rw [hatoms, wordKind_of_not_isReserved hreserved]
      exact primary_identifier name span
  | @number value span =>
      exact .of_primary (show 17 ≤ 18 by omega) fun _ => primary_number value span
  | @string text span =>
      exact .of_primary (show 17 ≤ 18 by omega) fun _ => primary_string text span
  | @constant kind span hmem =>
      simp only [List.mem_cons, List.not_mem_nil, or_false] at hmem
      rcases hmem with rfl | rfl | rfl | rfl
      all_goals exact .of_primary (show 17 ≤ 18 by omega) fun _ => primary_constant rfl span
  | binary hkind _ _ hleft hright => exact .binaryOperator hkind hleft hright
  | unary hkind _ h => exact .unary hkind h
  | update hkind hreference _ h => exact .update hkind _ hreference h
  | assign hop hassignable _ _ htarget hvalue => exact .assign hop hassignable htarget hvalue
  | conditional _ _ _ hcondition hthen helse => exact .conditional hcondition hthen helse
  | comma hlength _ h => exact .comma hlength h
  | dot _ _ h => exact .dot h _
  | index _ _ hobject hposition => exact .index hobject hposition
  | call _ _ hcallee hargs => exact .call hcallee hargs
  | newBare _ h => exact .newBare h
  | newArgs _ _ h hargs => exact .newArgs h hargs
  | arrayInit _ hholes h => exact .arrayInit h hholes
  | objectInit hkeys _ h => exact .objectInit hkeys h

/-! ### Whole texts -/

theorem length_le_spell {ps : List Piece} (h : ∀ p ∈ ps, p.Valid) (last : Option Char) :
    ps.length ≤ (spell last ps).length := by
  induction ps generalizing last with
  | nil => exact Nat.zero_le _
  | cons p ps ih =>
      have hrest := ih (fun q hq => h q (List.mem_cons_of_mem p hq)) p.text.getLast?
      have hpos := List.length_pos_of_ne_nil (Piece.text_ne_nil (h p List.mem_cons_self))
      simp only [spell, List.length_append, List.length_cons]
      omega

theorem isStatement_of_isExpression (h : t.IsExpression options) : t.kind.isStatement = false := by
  cases h with
  | constant hmem =>
      simp only [List.mem_cons, List.not_mem_nil, or_false] at hmem
      rcases hmem with rfl | rfl | rfl | rfl <;> rfl
  | @binary kind _ _ _ hkind => cases kind <;> cases hkind <;> rfl
  | @unary kind _ _ hkind => cases kind <;> cases hkind <;> rfl
  | update hkind => rcases hkind with rfl | rfl <;> rfl
  | _ => rfl

/-- The finished text of pieces is what they spell. -/
theorem text_writeAll {ps : List Piece} (h : ∀ p ∈ ps, p.Valid) :
    (({} : Output).writeAll ps).text.toList = spell none ps := by
  have hsemicolon : (({} : Output).writeAll ps).semicolonDue = false :=
    Output.semicolonDue_writeAll rfl ps
  rw [Output.text, Output.flush, if_neg (by simp [hsemicolon]), String.toList_ofList,
    Output.written_writeAll rfl h]
  rfl

/-! ### Ordinary expressions -/

theorem phrase_of_ordinary (h : t.Ordinary options) : Phrase (t.pieces options) :=
  phrase_of_isExpression h.isExpression false

theorem rereads_of_ordinary (h : t.Ordinary options) (line : Nat) : Rereads options line t :=
  rereads_of_isExpression h.isExpression line

/-- The text of an ordinary expression is that of its pieces. -/
theorem render_of_ordinary (h : t.Ordinary options) :
    (t.render options).toList = spell none (t.pieces options) := by
  have hwrites := (worded_of_isExpression h.isExpression).within (Nat.le_refl _) Precedence.comma
    false false {} rfl
  have hmode : modeOf t.kind = .expression Precedence.comma := by
    rw [modeOf, isStatement_of_isExpression h.isExpression]
    rfl
  rw [Tree.piecesWithin_comma] at hwrites
  show (((print t.depth (modeOf t.kind) { tree := t }).run options {}).2).text.toList = _
  rw [hmode, hwrites]
  exact text_writeAll (phrase_of_ordinary h).valid

end Printer

/-- A text that is made of the atoms of an expression is read as that expression. -/
theorem Grammar.gives_wholeExpression {line length : Nat} {t : Tree} {atoms : List Atom}
    (h : Derives line false 1 t.Same atoms) (hlength : atoms.length ≤ length) :
    Gives { turns := length + 2 } (At line atoms) (wholeExpression (derive (8 * (length + 2))))
      t.Same (Behind line []) := by
  have hslack : slack 1 = 3 := rfl
  have hreads := h.reads (8 * (length + 2)) { turns := length + 2 } [] nofun (by omega)
    (show atoms.length < length + 2 by omega) (show 0 < 1 by omega)
  rw [List.append_nil] at hreads
  refine .bind hreads fun t' ht' => ?_
  refine .bind (.next rfl) fun token htoken => ?_
  rw [if_pos (show token.kind = .endOfInput from htoken.kind)]
  exact .pure ht'

/-- Every ordinary expression is accepted when it has been written, and comes back as the same
tree up to spans and marked parentheses, whatever the options of the printer are. -/
theorem parseExpression_render {options : PrintOptions} {t : Tree} (h : t.Ordinary options)
    (line : Nat) : ∃ t', parseExpression (t.render options) line = .ok t' ∧ t'.plain = t.plain := by
  have hphrase := phrase_of_ordinary h
  have hderives := (rereads_of_ordinary h line).derives 1 (by omega) (by omega) (by omega)
    (one_le_precedence t.kind)
  have hat : At line (t.atoms options) (ofChars line (t.render options).toList) := by
    rw [render_of_ordinary h]
    exact at_ofChars (fun c hc => no_break_of_mem_spell hphrase.valid hc)
      (readable_spell hphrase.valid hphrase.chain none)
  have hlength : (t.atoms options).length ≤ (t.render options).toList.length := by
    rw [render_of_ordinary h, Tree.atoms, List.length_map]
    exact length_le_spell hphrase.valid none
  obtain ⟨t', s, hrun, hsame, -⟩ := gives_wholeExpression hderives hlength _ hat
  refine ⟨t', ?_, hsame⟩
  show (wholeExpression _ _ _).map (·.1) = _
  rw [hrun]
  rfl

/-- A difference whose parts need parentheses that are not marked. -/
def Tree.unmarkedSample : Tree :=
  ofList .minus ⟨0, 0, 0⟩ [
    ofList .dot ⟨0, 0, 0⟩ [number (.ofBits 0x3ff0000000000000) ⟨0, 0, 0⟩, identifier "in" ⟨0, 0, 0⟩],
    ofList .unaryMinus ⟨0, 0, 0⟩ [ofList .newBare ⟨0, 0, 0⟩ [
      ofList .call ⟨0, 0, 0⟩ [identifier "f" ⟨0, 0, 0⟩, ofList .list ⟨0, 0, 0⟩ []]]]]

theorem parseExpression_render_unmarkedSample :
    Tree.unmarkedSample.render {} = "(1).in- -new(f())" ∧
      ∃ t', parseExpression (Tree.unmarkedSample.render {}) 1 = .ok t' ∧
        t'.plain = Tree.unmarkedSample.plain := by
  have hone : (Number.ofBits 0x3ff0000000000000).ReadsBack := by decide +kernel
  have hcall : (Tree.ofList .call ⟨0, 0, 0⟩
      [.identifier "f" ⟨0, 0, 0⟩, .ofList .list ⟨0, 0, 0⟩ []]).Ordinary {} :=
    .call (.identifier (by decide) (by decide)) (by simp)
  refine ⟨by decide +kernel, parseExpression_render ?_ 1⟩
  exact .binary rfl (.dot (.number rfl rfl hone) (by decide)) (.unary rfl (.newBare hcall))

end ScriptMin
