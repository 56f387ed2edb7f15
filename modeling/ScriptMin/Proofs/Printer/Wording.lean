import ScriptMin.Printer.Print
import ScriptMin.Proofs.Printer.Phrases
import ScriptMin.Proofs.Tree.Ordinary

/-!
The pieces in which an ordinary expression is written. The printer is a computation on the
text so far; what it writes for an ordinary expression is a list of pieces that is a function
of the tree, and these pieces form a phrase.
-/

namespace ScriptMin

open Text

namespace Printer

/-! ### Computations that write pieces -/

namespace Output

def writeAll (o : Output) (ps : List Piece) : Output := ps.foldl (fun o p => o.write p.text) o

@[simp] theorem writeAll_nil (o : Output) : o.writeAll [] = o := rfl

@[simp] theorem writeAll_cons (o : Output) (p : Piece) (ps : List Piece) :
    o.writeAll (p :: ps) = (o.write p.text).writeAll ps := rfl

theorem writeAll_append (o : Output) (ps qs : List Piece) :
    o.writeAll (ps ++ qs) = (o.writeAll ps).writeAll qs :=
  List.foldl_append

@[simp] theorem noIn_flush (o : Output) : o.flush.noIn = o.noIn := by
  unfold flush
  split <;> rfl

@[simp] theorem noIn_write (o : Output) (text : List Char) : (o.write text).noIn = o.noIn := by
  unfold write
  split
  · rfl
  · exact noIn_flush o

@[simp] theorem noIn_writeAll (o : Output) (ps : List Piece) : (o.writeAll ps).noIn = o.noIn := by
  induction ps generalizing o with
  | nil => rfl
  | cons p ps ih => rw [writeAll_cons, ih, noIn_write]

theorem writeAll_setNoIn (o : Output) (noIn : Bool) (ps : List Piece) :
    ({ o with noIn } : Output).writeAll ps = { o.writeAll ps with noIn } := by
  induction ps generalizing o with
  | nil => rfl
  | cons p ps ih =>
      have hwrite : ({ o with noIn } : Output).write p.text = { o.write p.text with noIn } := by
        obtain ⟨written, due, before⟩ := o
        cases p.text with
        | nil => rfl
        | cons => cases due <;> rfl
      rw [writeAll_cons, hwrite, ih, writeAll_cons]

theorem semicolonDue_write {o : Output} (h : o.semicolonDue = false) (text : List Char) :
    (o.write text).semicolonDue = false := by
  unfold write flush
  split
  · exact h
  · simp [h]

theorem semicolonDue_writeAll {o : Output} (h : o.semicolonDue = false) (ps : List Piece) :
    (o.writeAll ps).semicolonDue = false := by
  induction ps generalizing o with
  | nil => exact h
  | cons p ps ih => exact ih (semicolonDue_write h p.text)

theorem written_write {o : Output} (h : o.semicolonDue = false) {p : Piece} (hp : p.Valid) :
    (o.write p.text).written.reverse =
      o.written.reverse ++ spell o.written.head? [p] := by
  obtain ⟨c, rest, htext⟩ := List.exists_cons_of_ne_nil (Piece.text_ne_nil hp)
  simp only [Output.write, flush, h, Bool.false_eq_true, if_false, htext, spell, List.head?_cons,
    Option.any_some, List.append_nil]
  split <;> simp

theorem head?_write {o : Output} (h : o.semicolonDue = false) {p : Piece} (hp : p.Valid) :
    (o.write p.text).written.head? = p.text.getLast? := by
  obtain ⟨c, rest, htext⟩ := List.exists_cons_of_ne_nil (Piece.text_ne_nil hp)
  simp only [Output.write, flush, h, Bool.false_eq_true, if_false, htext,
    List.reverseAux_eq, List.head?_append, List.head?_reverse]
  rw [List.getLast?_eq_some_getLast (List.cons_ne_nil c rest), Option.some_or]

theorem written_writeAll {o : Output} (h : o.semicolonDue = false) {ps : List Piece}
    (hps : ∀ p ∈ ps, p.Valid) :
    (o.writeAll ps).written.reverse = o.written.reverse ++ spell o.written.head? ps := by
  induction ps generalizing o with
  | nil => simp [spell]
  | cons p ps ih =>
      have hp := hps p List.mem_cons_self
      rw [writeAll_cons,
        ih (semicolonDue_write h p.text) fun q hq => hps q (List.mem_cons_of_mem p hq),
        written_write h hp, head?_write h hp]
      simp [spell]

end Output

/-- A computation writes the given pieces. What it writes may depend on whether the printer is
shy of `in`. -/
def Writes (options : PrintOptions) (shy : Bool) (w : Writing Unit) (ps : List Piece) : Prop :=
  ∀ o : Output, o.noIn = shy → w.run options o = ((), o.writeAll ps)

namespace Writes

variable {options : PrintOptions} {shy : Bool} {w w' : Writing Unit} {ps qs : List Piece}

theorem pure : Writes options shy (pure ()) [] := fun _ _ => rfl

theorem bind (h : Writes options shy w ps) (h' : Writes options shy w' qs) :
    Writes options shy (do w; w') (ps ++ qs) := by
  intro o ho
  have hw := h o ho
  have hw' := h' (o.writeAll ps) ((o.noIn_writeAll ps).trans ho)
  rw [Output.writeAll_append, ← hw']
  show (w.run options >>= fun _ => w'.run options).run o = _
  rw [StateT.run_bind]
  show (w.run options o >>= fun x => w'.run options x.2) = _
  rw [hw]
  rfl

theorem write {text : String} (p : Piece) (h : text.toList = p.text) :
    Writes options shy (write text) [p] := by
  intro o _
  show ((), Output.write text.toList o) = _
  rw [h]
  rfl

theorem allowIn (h : Writes options false w ps) : Writes options shy (allowIn w) ps := by
  intro o ho
  have hw := h { o with noIn := false } rfl
  show ((), { (w.run options { o with noIn := false }).2 with noIn := o.noIn }) = _
  rw [hw, Output.writeAll_setNoIn, ← o.noIn_writeAll ps]

end Writes

/-! ### The pieces of an expression -/

def Piece.ofText (text : String) : Piece :=
  match Punctuator.ofText? text with
  | some p => .sign p
  | none => .word text

theorem Piece.text_ofText (text : String) : (ofText text).text = text.toList := by
  unfold ofText
  cases h : Punctuator.ofText? text with
  | none => rfl
  | some p =>
      have heq := List.find?_some h
      rw [← beq_iff_eq.mp heq]
      rfl

def operatorPiece (kind : Kind) : Piece := .ofText (kind.operator?.getD "")

def assignPiece (op : Option Kind) : Piece :=
  match (op.bind Kind.operator?).bind Punctuator.ofText? with
  | some p => .compound p
  | none => .sign .assign

def commaRest (spaced : Bool) : List (List Piece) → List Piece
  | [] => []
  | ps :: rest => .comma spaced :: (ps ++ commaRest spaced rest)

def commaList (spaced : Bool) : List (List Piece) → List Piece
  | [] => []
  | ps :: rest => ps ++ commaRest spaced rest

def inParens (ps : List Piece) : List Piece := .sign .openParen :: (ps ++ [.sign .closeParen])

/-- A tree with the pieces it is written in where the printer is, or is not, shy of `in`. -/
structure Part where
  tree : Tree
  pieces : Bool → List Piece

/-- Whether a tree is put in parentheses in a place that asks for a precedence. -/
def Enclosed (least : Nat) (shy : Bool) (t : Tree) : Prop :=
  Precedence.of t.kind < least ∨ (t.kind = .isIn ∧ shy)

instance (least : Nat) (shy : Bool) (t : Tree) : Decidable (Enclosed least shy t) :=
  inferInstanceAs (Decidable (_ ∨ _))

theorem not_enclosed {t : Tree} {least : Nat} {shy : Bool}
    (h : least ≤ Precedence.of t.kind) (hin : t.kind = .isIn → shy = false) :
    ¬ Enclosed least shy t := by
  rintro (hlow | ⟨hkind, hshy⟩)
  · exact absurd h (Nat.not_le.mpr hlow)
  · simp [hin hkind] at hshy

namespace Part

/-- The pieces of a part in a place that asks for a precedence. Inside parentheses `in` is an
operator again. -/
def within (least : Nat) (shy : Bool) (part : Part) : List Piece :=
  if Enclosed least shy part.tree then inParens (part.pieces false) else part.pieces shy

def asObject (shy : Bool) (part : Part) : List Piece :=
  if ({ tree := part.tree } : Site).isBareInteger then inParens (part.pieces shy)
  else part.within Precedence.member shy

def asCallee (shy : Bool) (part : Part) : List Piece :=
  if Precedence.of part.tree.kind < Precedence.member ∨ chainHasCall part.tree then
    inParens (part.within Precedence.comma shy)
  else part.pieces shy

end Part

def formPieces (options : PrintOptions) (shy : Bool) (head : Head) (parts : List Part) :
    List Piece :=
  let items := commaList options.formatting.comma (parts.map (·.within Precedence.assignment shy))
  match head.kind, parts with
  | .identifier, _ => [.word head.text]
  | .number, _ => [.number (head.number?.getD .zero)]
  | .string, _ => [.string options.asciiThreshold head.text]
  | .trueLit, _ => [.word "true"]
  | .falseLit, _ => [.word "false"]
  | .nullLit, _ => [.word "null"]
  | .thisRef, _ => [.word "this"]
  | .assign, [target, value] =>
    target.within Precedence.trailing shy ++
      assignPiece head.assignOp :: value.within Precedence.assignment shy
  | .conditional, [condition, thenPart, elsePart] =>
    condition.within (Precedence.conditional + 1) shy ++ .sign .question ::
      (thenPart.within Precedence.assignment false ++ .sign .colon ::
        elsePart.within Precedence.assignment shy)
  | .dot, [object, name] => object.asObject shy ++ [.sign .dot, .word name.tree.head.text]
  | .index, [object, position] =>
    object.within Precedence.member shy ++ .sign .openBracket ::
      (position.within Precedence.comma shy ++ [.sign .closeBracket])
  | .call, [callee, list] => callee.within Precedence.member shy ++ inParens (list.pieces false)
  | .newBare, [callee] => .word "new" :: callee.asCallee shy
  | .newArgs, [callee, list] =>
    .word "new" :: (callee.asCallee shy ++ inParens (list.pieces false))
  | .list, _ | .comma, _ => items
  | .arrayInit, _ =>
    .sign .openBracket :: (items ++
      (if parts.getLast?.any (·.tree.kind == .hole) then [.comma false] else []) ++
        [.sign .closeBracket])
  | .objectInit, _ =>
    .sign .openBrace :: (commaList options.formatting.comma (parts.map (·.pieces shy)) ++
      [.sign .closeBrace])
  | .propertyInit, [key, value] =>
    key.pieces shy ++ .sign .colon :: value.within Precedence.assignment shy
  | kind, [operand] =>
    if head.flags.trailing then operand.within Precedence.trailing shy ++ [operatorPiece kind]
    else operatorPiece kind :: operand.within Precedence.unary shy
  | kind, [left, right] =>
    left.within (Precedence.operands kind).1 shy ++ operatorPiece kind ::
      right.within (Precedence.operands kind).2 shy
  | _, _ => []

end Printer

namespace Tree

mutual
def pieces (options : PrintOptions) : Tree → (shy : Bool := false) → List Printer.Piece
  | .node head children, shy => Printer.formPieces options shy head (parts options children)

def parts (options : PrintOptions) : List Tree → List Printer.Part
  | [] => []
  | t :: rest => ⟨t, fun shy => pieces options t shy⟩ :: parts options rest
end

def asPart (options : PrintOptions) (t : Tree) : Printer.Part := ⟨t, fun shy => t.pieces options shy⟩

theorem parts_eq_map (options : PrintOptions) (ts : List Tree) :
    parts options ts = ts.map (asPart options) := by
  induction ts with
  | nil => rfl
  | cons t ts ih => rw [parts, ih, List.map_cons, asPart]

theorem pieces_node (options : PrintOptions) (shy : Bool) (head : Head) (children : List Tree) :
    (Tree.node head children).pieces options shy =
      Printer.formPieces options shy head (children.map (asPart options)) := by
  rw [pieces, parts_eq_map]

/-- The pieces of a tree in a place that asks for a precedence. -/
def piecesWithin (options : PrintOptions) (least : Nat) (t : Tree) (shy : Bool := false) :
    List Printer.Piece :=
  (t.asPart options).within least shy

variable {options : PrintOptions} {shy : Bool} {span listSpan : Span}

open Printer

theorem piecesWithin_of_enclosed {t : Tree} {least : Nat} (h : Enclosed least shy t) :
    t.piecesWithin options least shy = inParens (t.pieces options) :=
  if_pos h

theorem piecesWithin_of_not_enclosed {t : Tree} {least : Nat} (h : ¬ Enclosed least shy t) :
    t.piecesWithin options least shy = t.pieces options shy :=
  if_neg h

theorem piecesWithin_comma (t : Tree) :
    t.piecesWithin options Precedence.comma = t.pieces options :=
  piecesWithin_of_not_enclosed (not_enclosed (by cases t.kind <;> decide) fun _ => rfl)

theorem pieces_binary {kind : Kind} (h : kind.isBinary) (left right : Tree) :
    (ofList kind span [left, right]).pieces options shy =
      left.piecesWithin options (Precedence.of kind) shy ++ operatorPiece kind ::
        right.piecesWithin options (Precedence.of kind + 1) shy := by
  rw [ofList, pieces_node]
  cases kind <;> cases h <;> rfl

theorem pieces_unary {kind : Kind} (h : kind.isUnary) (operand : Tree) :
    (ofList kind span [operand]).pieces options shy =
      operatorPiece kind :: operand.piecesWithin options Precedence.unary shy := by
  rw [ofList, pieces_node]
  cases kind <;> cases h <;> rfl

theorem pieces_update {kind : Kind} (h : kind = .increment ∨ kind = .decrement) (trailing : Bool)
    (operand : Tree) :
    (node { kind, span, flags := { trailing } } [operand]).pieces options shy =
      if trailing then operand.piecesWithin options Precedence.trailing shy ++ [operatorPiece kind]
      else operatorPiece kind :: operand.piecesWithin options Precedence.unary shy := by
  rw [pieces_node]
  rcases h with rfl | rfl <;> rfl

theorem pieces_assign {op : Option Kind} (target value : Tree) :
    (node { kind := .assign, span, assignOp := op } [target, value]).pieces options shy =
      target.piecesWithin options Precedence.trailing shy ++
        assignPiece op :: value.piecesWithin options Precedence.assignment shy := by
  rw [pieces_node]
  rfl

theorem pieces_conditional (condition thenPart elsePart : Tree) :
    (ofList .conditional span [condition, thenPart, elsePart]).pieces options shy =
      condition.piecesWithin options (Precedence.conditional + 1) shy ++ .sign .question ::
        (thenPart.piecesWithin options Precedence.assignment ++ .sign .colon ::
          elsePart.piecesWithin options Precedence.assignment shy) := by
  rw [ofList, pieces_node]
  rfl

def itemPieces (options : PrintOptions) (ts : List Tree) (shy : Bool := false) :
    List Printer.Piece :=
  commaList options.formatting.comma
    (ts.map fun t => t.piecesWithin options Precedence.assignment shy)

theorem pieces_items {kind : Kind} (h : kind = .list ∨ kind = .comma) (span : Span)
    (ts : List Tree) : (ofList kind span ts).pieces options shy = itemPieces options ts shy := by
  rw [ofList, pieces_node, itemPieces]
  rcases h with rfl | rfl <;> simp only [formPieces, List.map_map] <;> rfl

theorem pieces_dot (object : Tree) (name : String) :
    (ofList .dot span [object, identifier name listSpan]).pieces options shy =
      (object.asPart options).asObject shy ++ [.sign .dot, .word name] := by
  rw [ofList, pieces_node]
  rfl

theorem pieces_index (object position : Tree) :
    (ofList .index span [object, position]).pieces options shy =
      object.piecesWithin options Precedence.member shy ++ .sign .openBracket ::
        (position.piecesWithin options Precedence.comma shy ++ [.sign .closeBracket]) := by
  rw [ofList, pieces_node]
  rfl

theorem pieces_call (callee : Tree) (args : List Tree) :
    (ofList .call span [callee, ofList .list listSpan args]).pieces options shy =
      callee.piecesWithin options Precedence.member shy ++ inParens (itemPieces options args) := by
  rw [← pieces_items (.inl rfl) listSpan args, ofList, pieces_node]
  rfl

theorem pieces_newBare (callee : Tree) :
    (ofList .newBare span [callee]).pieces options shy =
      .word "new" :: (callee.asPart options).asCallee shy := by
  rw [ofList, pieces_node]
  rfl

theorem pieces_newArgs (callee : Tree) (args : List Tree) :
    (ofList .newArgs span [callee, ofList .list listSpan args]).pieces options shy =
      .word "new" :: ((callee.asPart options).asCallee shy ++ inParens (itemPieces options args)) := by
  rw [← pieces_items (.inl rfl) listSpan args, ofList, pieces_node]
  rfl

theorem pieces_arrayInit (elements : List Tree) :
    (ofList .arrayInit span elements).pieces options shy =
      .sign .openBracket :: (itemPieces options elements shy ++
        (if elements.getLast?.any (·.kind == .hole) then [.comma false] else []) ++
          [.sign .closeBracket]) := by
  rw [ofList, pieces_node]
  simp only [formPieces, List.map_map, List.getLast?_map, Option.any_map]
  rfl

theorem pieces_field (f : Field) :
    f.tree.pieces options shy = f.key.pieces options shy ++ .sign .colon ::
      f.value.piecesWithin options Precedence.assignment shy := by
  rw [Field.tree, ofList, pieces_node]
  rfl

theorem pieces_objectInit (properties : List Tree) :
    (ofList .objectInit span properties).pieces options shy =
      .sign .openBrace :: (commaList options.formatting.comma
        (properties.map fun t => t.pieces options shy) ++ [.sign .closeBrace]) := by
  rw [ofList, pieces_node]
  simp only [formPieces, List.map_map, Function.comp_def, asPart]

end Tree

namespace Printer

variable {options : PrintOptions} {shy : Bool}

/-! ### What the printer writes -/

/-- The printer writes the pieces of a tree wherever the tree stands. -/
structure Worded (options : PrintOptions) (t : Tree) : Prop where
  bare : ∀ shy depth, t.depth ≤ depth → ∀ underCall soleArgument,
    Writes options shy (print depth .bare ⟨t, underCall, soleArgument⟩) (t.pieces options shy)
  parens : ∀ shy least underCall soleArgument,
    needsParens shy least ⟨t, underCall, soleArgument⟩ = decide (Enclosed least shy t)

theorem writes_inParens {w : Writing Unit} {ps : List Piece} (h : Writes options shy w ps) :
    Writes options shy (do write "("; w; write ")") (inParens ps) :=
  (Writes.write (.sign .openParen) rfl).bind (h.bind (.write (.sign .closeParen) rfl))

theorem Worded.within {t : Tree} (h : Worded options t) {depth : Nat}
    (hdepth : t.depth ≤ depth) (least : Nat) (underCall soleArgument : Bool) :
    Writes options shy (print depth (.expression least) ⟨t, underCall, soleArgument⟩)
      (t.piecesWithin options least shy) := by
  obtain ⟨depth, rfl⟩ := Nat.exists_eq_add_one.mpr ((Tree.depth_pos t).trans_le hdepth)
  have hbare := h.bare shy (depth + 1) hdepth underCall soleArgument
  have hparens : Writes options shy _ _ :=
    (writes_inParens (h.bare false (depth + 1) hdepth underCall soleArgument)).allowIn
  have hneeds := h.parens shy least underCall soleArgument
  intro o ho
  have hrun : (print (depth + 1) (.expression least) ⟨t, underCall, soleArgument⟩).run options o =
      (if needsParens o.noIn least ⟨t, underCall, soleArgument⟩ then
        allowIn (do write "("; print (depth + 1) .bare ⟨t, underCall, soleArgument⟩; write ")")
      else print (depth + 1) .bare ⟨t, underCall, soleArgument⟩).run options o := rfl
  rw [hrun, ho, hneeds]
  by_cases henclosed : Enclosed least shy t
  · rw [Tree.piecesWithin_of_enclosed henclosed, if_pos (decide_eq_true henclosed)]
    exact hparens o ho
  · rw [Tree.piecesWithin_of_not_enclosed henclosed, if_neg (by simpa using henclosed)]
    exact hbare o ho

theorem writes_separator : Writes options shy separator [.comma options.formatting.comma] := by
  intro o ho
  show (write (if options.formatting.comma then ", " else ",")).run options o = _
  cases options.formatting.comma with
  | false => exact Writes.write (.comma false) rfl o ho
  | true => exact Writes.write (.comma true) rfl o ho

theorem writes_separatedRest {w : Site → Writing Unit} (site : Site) {f : Tree → List Piece}
    {ts : List Tree} (h : ∀ t ∈ ts, Writes options shy (w (site.below t)) (f t)) :
    Writes options shy (separatedRest w (ts.map site.below))
      (commaRest options.formatting.comma (ts.map f)) := by
  induction ts with
  | nil => exact .pure
  | cons t ts ih =>
      have hrest := ih fun s hs => h s (List.mem_cons_of_mem t hs)
      exact writes_separator.bind ((h t List.mem_cons_self).bind hrest)

theorem writes_separated {w : Site → Writing Unit} (site : Site) {f : Tree → List Piece}
    {ts : List Tree} (h : ∀ t ∈ ts, Writes options shy (w (site.below t)) (f t)) :
    Writes options shy (separated w (ts.map site.below))
      (commaList options.formatting.comma (ts.map f)) := by
  cases ts with
  | nil => exact .pure
  | cons t ts =>
      have hrest := writes_separatedRest site fun s hs => h s (List.mem_cons_of_mem t hs)
      exact (h t List.mem_cons_self).bind hrest

/-- A tree is worded if the form of its kind writes its pieces. -/
theorem Worded.of_form {head : Head} {children : List Tree}
    (hform : isStatementForm head.kind = false) (hparens : head.flags.parenthesized = false)
    (hsign : head.kind = .number → head.number?.any Number.isBelowZero = false)
    (h : ∀ shy depth, (∀ c ∈ children, c.depth ≤ depth) → ∀ underCall soleArgument,
      Writes options shy (expressionForm (print depth) ⟨.node head children, underCall, soleArgument⟩)
        ((Tree.node head children).pieces options shy)) :
    Worded options (.node head children) where
  bare := by
    intro shy depth hdepth underCall soleArgument
    obtain ⟨depth, rfl⟩ := Nat.exists_eq_add_one.mpr ((Tree.depth_pos _).trans_le hdepth)
    rw [Tree.depth] at hdepth
    have hbare : print (depth + 1) .bare ⟨.node head children, underCall, soleArgument⟩ =
        expressionForm (print depth) ⟨.node head children, underCall, soleArgument⟩ :=
      if_neg (by simpa [Site.kind, Tree.kind, Tree.head] using hform)
    rw [hbare]
    exact h shy depth (fun c hc => (Tree.depth_le_depthList hc).trans (by omega)) underCall soleArgument
  parens := by
    intro shy least underCall soleArgument
    have hprecedence : ({ tree := .node head children, underCall, soleArgument } : Site).precedence =
        Precedence.of head.kind := by
      refine if_neg ?_
      rintro ⟨hkind, hbelow⟩
      exact absurd hbelow (by simp [Tree.head, hsign hkind])
    rw [Bool.eq_iff_iff, decide_eq_true_iff]
    simp [needsParens, hprecedence, Enclosed, Site.flags, Site.kind, Tree.flags, Tree.kind, Tree.head,
      hparens]

theorem expressionForm_binary (self : Self) (site : Site) (h : site.kind.isBinary) :
    expressionForm self site = (do
      optional self (Precedence.of site.kind) (site.nth? 0)
      write (site.kind.operator?.getD "")
      optional self (Precedence.of site.kind + 1) (site.nth? 1)) := by
  unfold expressionForm
  generalize site.kind = kind at h ⊢
  cases kind <;> cases h <;> rfl

theorem expressionForm_unary (self : Self) (site : Site) (h : site.kind.isUnary) :
    expressionForm self site = (do
      write (site.kind.operator?.getD "")
      optional self Precedence.unary (site.nth? 0)) := by
  unfold expressionForm
  generalize site.kind = kind at h ⊢
  cases kind <;> cases h <;> rfl

theorem writes_operator (kind : Kind) :
    Writes options shy (write (kind.operator?.getD "")) [operatorPiece kind] :=
  .write _ (Piece.text_ofText _).symm

theorem writes_assignSign {op : Option Kind} (h : ∀ kind ∈ op, kind.isCompound) {head : Head}
    (hop : head.assignOp = op) : Writes options shy (write (assignSign head)) [assignPiece op] := by
  refine .write _ ?_
  rw [assignSign, hop]
  cases op with
  | none => rfl
  | some kind =>
      have hkind : kind.isCompound := h kind rfl
      cases kind <;> cases hkind <;> rfl

theorem writes_item {t : Tree} (h : Worded options t) {depth : Nat} (hdepth : t.depth ≤ depth)
    (site : Site) : Writes options shy (item (print depth) (site.below t))
      (t.piecesWithin options Precedence.assignment shy) :=
  h.within hdepth _ _ _

theorem writes_arguments {args : List Tree} (hargs : ∀ t ∈ args, Worded options t) {depth : Nat}
    (hdepth : ∀ t ∈ args, t.depth ≤ depth) {site : Site}
    {listSpan : Span} (hlist : site.tree = .ofList .list listSpan args) :
    Writes options shy (arguments (print depth) (some site))
      (inParens (Tree.itemPieces options args)) := by
  have hchildren : site.children = args.map site.below := by
    rw [Site.children, hlist]
    rfl
  have hwrites : Writes options shy (allowIn (separated (item (print depth)) site.children))
      (Tree.itemPieces options args) := by
    rw [hchildren]
    exact (writes_separated site fun t ht => writes_item (hargs t ht) (hdepth t ht) site).allowIn
  exact writes_inParens hwrites

theorem writes_quote (text : String) :
    Writes options shy (do write (quote (← read).asciiThreshold text))
      [.string options.asciiThreshold text] := by
  intro o ho
  show (write (quote options.asciiThreshold text)).run options o = _
  exact Writes.write (.string options.asciiThreshold text) rfl o ho

theorem writes_propertyKey {key : Tree} (h : key.IsKey options) (underCall soleArgument : Bool) :
    Writes options shy (propertyKey ⟨key, underCall, soleArgument⟩) (key.pieces options shy) := by
  cases h with
  | @name name => exact .write (.word name) rfl
  | @string text => exact writes_quote text
  | @number value => exact .write (.number value) rfl

namespace Worded

variable {span listSpan : Span}

theorem hole (span : Span) : Worded options (.hole span) :=
  .of_form rfl rfl nofun fun _ _ _ _ _ => .pure

theorem binary {kind : Kind} (hkind : kind.isBinary) {left right : Tree}
    (hleft : Worded options left) (hright : Worded options right) :
    Worded options (.ofList kind span [left, right]) := by
  refine .of_form (by cases kind <;> cases hkind <;> rfl) rfl
    (by rintro rfl; cases hkind) fun shy depth hdepth underCall soleArgument => ?_
  have hform := expressionForm_binary (print depth)
    ⟨.ofList kind span [left, right], underCall, soleArgument⟩ hkind
  rw [← Tree.ofList, hform, Tree.pieces_binary hkind]
  exact (hleft.within (hdepth left (by simp)) _ _ _).bind
    ((writes_operator kind).bind (hright.within (hdepth right (by simp)) _ _ _))

theorem unary {kind : Kind} (hkind : kind.isUnary) {operand : Tree}
    (h : Worded options operand) : Worded options (.ofList kind span [operand]) := by
  refine .of_form (by cases kind <;> cases hkind <;> rfl) rfl
    (by rintro rfl; cases hkind) fun shy depth hdepth underCall soleArgument => ?_
  have hform := expressionForm_unary (print depth)
    ⟨.ofList kind span [operand], underCall, soleArgument⟩ hkind
  rw [← Tree.ofList, hform, Tree.pieces_unary hkind]
  exact (writes_operator kind).bind (h.within (hdepth operand (by simp)) _ _ _)

theorem update {kind : Kind} (hkind : kind = .increment ∨ kind = .decrement) (trailing : Bool)
    {operand : Tree} (h : Worded options operand) :
    Worded options (.node { kind, span, flags := { trailing } } [operand]) := by
  refine .of_form (by rcases hkind with rfl | rfl <;> rfl) rfl
    (by rcases hkind with rfl | rfl <;> nofun) fun shy depth hdepth _ _ => ?_
  rw [Tree.pieces_update hkind]
  have hdepth := hdepth operand (by simp)
  rcases hkind with rfl | rfl <;> cases trailing
  · exact (writes_operator .increment).bind (h.within hdepth _ _ _)
  · exact (h.within hdepth _ _ _).bind (writes_operator .increment)
  · exact (writes_operator .decrement).bind (h.within hdepth _ _ _)
  · exact (h.within hdepth _ _ _).bind (writes_operator .decrement)

theorem assign {op : Option Kind} (hop : ∀ kind ∈ op, kind.isCompound) {target value : Tree}
    (htarget : Worded options target) (hvalue : Worded options value) :
    Worded options (.node { kind := .assign, span, assignOp := op } [target, value]) := by
  refine .of_form rfl rfl nofun fun shy depth hdepth _ _ => ?_
  rw [Tree.pieces_assign]
  exact (htarget.within (hdepth target (by simp)) _ _ _).bind
    ((writes_assignSign hop rfl).bind (hvalue.within (hdepth value (by simp)) _ _ _))

theorem conditional {condition thenPart elsePart : Tree} (hcondition : Worded options condition)
    (hthen : Worded options thenPart) (helse : Worded options elsePart) :
    Worded options (.ofList .conditional span [condition, thenPart, elsePart]) := by
  refine .of_form rfl rfl nofun fun shy depth hdepth _ _ => ?_
  rw [← Tree.ofList, Tree.pieces_conditional]
  exact (hcondition.within (hdepth condition (by simp)) _ _ _).bind
    ((Writes.write (.sign .question) rfl).bind
      ((hthen.within (hdepth thenPart (by simp)) _ _ _).allowIn.bind
        ((Writes.write (.sign .colon) rfl).bind
          (helse.within (hdepth elsePart (by simp)) _ _ _))))

theorem comma {parts : List Tree} (h : ∀ t ∈ parts, Worded options t) :
    Worded options (.ofList .comma span parts) := by
  refine .of_form rfl rfl nofun fun shy depth hdepth _ _ => ?_
  rw [← Tree.ofList, Tree.pieces_items (.inr rfl)]
  exact writes_separated _ fun t ht => writes_item (h t ht) (hdepth t ht) _

theorem dot {object : Tree} (h : Worded options object) (name : String) :
    Worded options (.ofList .dot span [object, .identifier name listSpan]) := by
  refine .of_form rfl rfl nofun fun shy depth hdepth underCall soleArgument => ?_
  have hdepth := hdepth object (by simp)
  have hend : Writes options shy (do write "."; write name) [.sign .dot, .word name] :=
    (Writes.write (.sign .dot) rfl).bind (.write (.word name) rfl)
  have hform : expressionForm (print depth)
      ⟨.ofList .dot span [object, .identifier name listSpan], underCall, soleArgument⟩ =
      (if ({ tree := object } : Site).isBareInteger then do
        write "("
        print depth .bare ⟨object, false, false⟩
        write ")"
        write "."
        write name
      else do
        print depth (.expression Precedence.member) ⟨object, false, false⟩
        write "."
        write name) := rfl
  have hpieces : (object.asPart options).asObject shy =
      if ({ tree := object } : Site).isBareInteger then inParens (object.pieces options shy)
      else object.piecesWithin options Precedence.member shy := rfl
  rw [← Tree.ofList, Tree.pieces_dot, hform, hpieces]
  by_cases hbare : ({ tree := object } : Site).isBareInteger
  · rw [if_pos hbare, if_pos hbare, inParens, List.cons_append, List.append_assoc]
    exact (Writes.write (.sign .openParen) rfl).bind ((h.bare shy depth hdepth false false).bind
      ((Writes.write (.sign .closeParen) rfl).bind hend))
  · rw [if_neg hbare, if_neg hbare]
    exact (h.within hdepth Precedence.member false false).bind hend

theorem index {object position : Tree} (hobject : Worded options object)
    (hposition : Worded options position) :
    Worded options (.ofList .index span [object, position]) := by
  refine .of_form rfl rfl nofun fun shy depth hdepth _ _ => ?_
  rw [← Tree.ofList, Tree.pieces_index]
  exact (hobject.within (hdepth object (by simp)) _ _ _).bind
    ((Writes.write (.sign .openBracket) rfl).bind
      ((hposition.within (hdepth position (by simp)) _ _ _).bind
        (.write (.sign .closeBracket) rfl)))

theorem call {callee : Tree} {args : List Tree} (hcallee : Worded options callee)
    (hargs : ∀ t ∈ args, Worded options t) :
    Worded options (.ofList .call span [callee, .ofList .list listSpan args]) := by
  refine .of_form rfl rfl nofun fun shy depth hdepth _ _ => ?_
  rw [← Tree.ofList, Tree.pieces_call]
  have hlist := hdepth (.ofList .list listSpan args) (by simp)
  exact (hcallee.within (hdepth callee (by simp)) _ _ _).bind
    (writes_arguments hargs (fun t ht => (Tree.depth_le_of_mem ht).trans hlist) rfl)

/-- What is written for the class of a `new`. -/
theorem writes_newCallee {callee : Tree} (h : Worded options callee)
    (hflags : callee.flags.parenthesized = false) {depth : Nat} (hdepth : callee.depth ≤ depth)
    (underCall soleArgument : Bool) :
    Writes options shy (newCallee (print depth) ⟨callee, underCall, soleArgument⟩)
      ((callee.asPart options).asCallee shy) := by
  have hform : newCallee (print depth) ⟨callee, underCall, soleArgument⟩ =
      if !callee.flags.parenthesized &&
          (Precedence.of callee.kind < Precedence.member || chainHasCall callee) then do
        write "("
        print depth (.expression Precedence.comma) ⟨callee, underCall, soleArgument⟩
        write ")"
      else print depth (.expression Precedence.member) ⟨callee, underCall, soleArgument⟩ := rfl
  have hwrap : (!callee.flags.parenthesized &&
      (Precedence.of callee.kind < Precedence.member || chainHasCall callee)) = true ↔
      Precedence.of callee.kind < Precedence.member ∨ chainHasCall callee := by
    simp [hflags]
  have hpieces : (callee.asPart options).asCallee shy =
      if Precedence.of callee.kind < Precedence.member ∨ chainHasCall callee then
        inParens (callee.piecesWithin options Precedence.comma shy)
      else callee.pieces options shy := rfl
  rw [hform, hpieces]
  by_cases hcall : Precedence.of callee.kind < Precedence.member ∨ chainHasCall callee
  · rw [if_pos (hwrap.mpr hcall), if_pos hcall]
    exact writes_inParens (h.within hdepth Precedence.comma underCall soleArgument)
  · have htight := Nat.le_of_not_lt fun hlow => hcall (.inl hlow)
    have hnot : ¬ Enclosed Precedence.member shy callee := not_enclosed htight fun hkind => by
      rw [hkind] at htight
      exact absurd htight (by decide)
    rw [if_neg fun hwrapped => hcall (hwrap.mp hwrapped), if_neg hcall,
      ← Tree.piecesWithin_of_not_enclosed hnot]
    exact h.within hdepth Precedence.member underCall soleArgument

theorem newBare {callee : Tree} (h : Worded options callee)
    (hflags : callee.flags.parenthesized = false) :
    Worded options (.ofList .newBare span [callee]) := by
  refine .of_form rfl rfl nofun fun shy depth hdepth _ _ => ?_
  rw [← Tree.ofList, Tree.pieces_newBare]
  have hcallee : Writes options shy _ _ :=
    writes_newCallee h hflags (hdepth callee (by simp)) false false
  rw [← List.append_nil ((callee.asPart options).asCallee shy)]
  exact (Writes.write (.word "new") rfl).bind (hcallee.bind .pure)

theorem newArgs {callee : Tree} {args : List Tree} (h : Worded options callee)
    (hflags : callee.flags.parenthesized = false) (hargs : ∀ t ∈ args, Worded options t) :
    Worded options (.ofList .newArgs span [callee, .ofList .list listSpan args]) := by
  refine .of_form rfl rfl nofun fun shy depth hdepth _ _ => ?_
  rw [← Tree.ofList, Tree.pieces_newArgs]
  have hlist := hdepth (.ofList .list listSpan args) (by simp)
  exact (Writes.write (.word "new") rfl).bind
    ((writes_newCallee h hflags (hdepth callee (by simp)) _ _).bind
      (writes_arguments hargs (fun t ht => (Tree.depth_le_of_mem ht).trans hlist) rfl))

theorem arrayInit {elements : List Tree} (h : ∀ t ∈ elements, Worded options t) :
    Worded options (.ofList .arrayInit span elements) := by
  refine .of_form rfl rfl nofun fun shy depth hdepth _ _ => ?_
  have hitems : Writes options shy _ (Tree.itemPieces options elements shy) :=
    writes_separated ⟨.ofList .arrayInit span elements, false, false⟩
      fun t ht => writes_item (h t ht) (hdepth t ht) _
  have hend : Writes options shy (write "]") [.sign .closeBracket] := .write _ rfl
  have hform : ∀ underCall soleArgument, expressionForm (print depth)
      ⟨.ofList .arrayInit span elements, underCall, soleArgument⟩ = (do
        write "["
        separated (item (print depth)) (Site.children ⟨.ofList .arrayInit span elements, false, false⟩)
        if elements.getLast?.any (·.kind == .hole) then do
          write ","
          write "]"
        else write "]") := fun _ _ => rfl
  rw [← Tree.ofList, Tree.pieces_arrayInit, hform]
  by_cases hhole : elements.getLast?.any (·.kind == .hole)
  · rw [if_pos hhole, if_pos hhole, List.append_assoc]
    exact (Writes.write (.sign .openBracket) rfl).bind
      (hitems.bind ((Writes.write (.comma false) rfl).bind hend))
  · rw [if_neg hhole, if_neg hhole, List.append_nil]
    exact (Writes.write (.sign .openBracket) rfl).bind (hitems.bind hend)

theorem field {f : Tree.Field} (hkey : f.key.IsKey options) (h : Worded options f.value) :
    Worded options f.tree := by
  refine .of_form rfl rfl nofun fun shy depth hdepth _ _ => ?_
  refine Eq.mpr (congrArg _ (Tree.pieces_field f)) ?_
  exact (writes_propertyKey hkey _ _).bind ((Writes.write (.sign .colon) rfl).bind
    (h.within (hdepth f.value (by simp)) _ _ _))

theorem objectInit {properties : List Tree} (h : ∀ t ∈ properties, Worded options t) :
    Worded options (.ofList .objectInit span properties) := by
  refine .of_form rfl rfl nofun fun shy depth hdepth _ _ => ?_
  rw [← Tree.ofList, Tree.pieces_objectInit]
  have hitems := writes_separated ⟨.ofList .objectInit span properties, false, false⟩
    fun t ht => (h t ht).bare shy depth (hdepth t ht) _ _
  exact (Writes.write (.sign .openBrace) rfl).bind
    (hitems.bind (.write (.sign .closeBrace) rfl))

end Worded

/-- An expression is written in its pieces. -/
theorem worded_of_isExpression {t : Tree} (h : t.IsExpression options) : Worded options t := by
  induction h with
  | @identifier name =>
      exact .of_form rfl rfl nofun fun _ _ _ _ _ => .write (.word name) rfl
  | @number value span hfinite hsign =>
      refine .of_form rfl rfl (fun _ => ?_) fun _ _ _ _ _ => .write (.number value) rfl
      simp [Head.number?, Number.isBelowZero, hsign]
  | @string text =>
      exact .of_form rfl rfl nofun fun _ _ _ _ _ => writes_quote text
  | constant hmem =>
      simp only [List.mem_cons, List.not_mem_nil, or_false] at hmem
      rcases hmem with rfl | rfl | rfl | rfl
      all_goals exact .of_form rfl rfl nofun fun _ _ _ _ _ => .write (.word _) rfl
  | binary hkind _ _ hleft hright => exact .binary hkind hleft hright
  | unary hkind _ h => exact .unary hkind h
  | update hkind _ _ h => exact .update hkind _ h
  | assign hop _ _ _ htarget hvalue => exact .assign hop htarget hvalue
  | conditional _ _ _ hcondition hthen helse => exact .conditional hcondition hthen helse
  | comma _ _ h => exact .comma h
  | dot _ _ h => exact .dot h _
  | index _ _ hobject hposition => exact .index hobject hposition
  | call _ _ hcallee hargs => exact .call hcallee hargs
  | newBare hcallee h => exact .newBare h hcallee.flags_parenthesized
  | newArgs hcallee _ h hargs => exact .newArgs h hcallee.flags_parenthesized hargs
  | arrayInit _ hholes h =>
      refine .arrayInit fun t ht => ?_
      by_cases hkind : t.kind = .hole
      · obtain ⟨span, rfl⟩ := hholes t ht hkind
        exact .hole span
      · exact h t ht hkind
  | objectInit hkeys _ h =>
      refine .objectInit fun t ht => ?_
      obtain ⟨f, hf, rfl⟩ := List.mem_map.mp ht
      exact .field (hkeys f hf) (h f hf)

/-! ### Pieces as phrases -/

theorem phrase_inParens {ps : List Piece} (h : Items ps) : Phrase (inParens ps) :=
  h.enclose rfl rfl rfl rfl

theorem phrase_within {t : Tree} (h : ∀ shy, Phrase (t.pieces options shy)) (least : Nat) :
    Phrase (t.piecesWithin options least shy) := by
  by_cases henclosed : Enclosed least shy t
  · rw [Tree.piecesWithin_of_enclosed henclosed]
    exact phrase_inParens (.of_phrase (h false))
  · rw [Tree.piecesWithin_of_not_enclosed henclosed]
    exact h shy

theorem items_append_commaRest {ps : List Piece} (h : Items ps) (spaced : Bool)
    {pss : List (List Piece)} (hpss : ∀ qs ∈ pss, Items qs) :
    Items (ps ++ commaRest spaced pss) := by
  induction pss generalizing ps with
  | nil => simpa [commaRest] using h
  | cons qs pss ih =>
      have hrest := ih (hpss qs List.mem_cons_self) fun rs hrs => hpss rs (List.mem_cons_of_mem qs hrs)
      exact h.comma spaced hrest

theorem items_commaList (spaced : Bool) {pss : List (List Piece)} (h : ∀ ps ∈ pss, Items ps) :
    Items (commaList spaced pss) := by
  cases pss with
  | nil => exact .nil
  | cons ps pss =>
      exact items_append_commaRest (h ps List.mem_cons_self) spaced
        fun qs hqs => h qs (List.mem_cons_of_mem ps hqs)

theorem phrase_append_commaRest {ps : List Piece} (h : Phrase ps) (spaced : Bool)
    {pss : List (List Piece)} (hpss : ∀ qs ∈ pss, Phrase qs) :
    Phrase (ps ++ commaRest spaced pss) := by
  induction pss generalizing ps with
  | nil => simpa [commaRest] using h
  | cons qs pss ih =>
      have hrest := ih (hpss qs List.mem_cons_self) fun rs hrs => hpss rs (List.mem_cons_of_mem qs hrs)
      exact h.between (p := .comma spaced) trivial rfl rfl hrest

theorem operatorPiece_binary {kind : Kind} (h : kind.isBinary) :
    (operatorPiece kind).Valid ∧ (operatorPiece kind).trails ∧ (operatorPiece kind).leads := by
  cases kind <;> cases h <;> first | exact ⟨trivial, rfl, rfl⟩ | exact ⟨rfl, rfl, rfl⟩

theorem operatorPiece_unary {kind : Kind} (h : kind.isUnary) :
    (operatorPiece kind).Valid ∧ (operatorPiece kind).starts ∧ (operatorPiece kind).leads := by
  cases kind <;> cases h <;> first | exact ⟨trivial, rfl, rfl⟩ | exact ⟨rfl, rfl, rfl⟩

theorem assignPiece_compound {kind : Kind} (h : kind.isCompound) :
    ∃ p ∈ Punctuator.compounds, assignPiece (some kind) = .compound p := by
  cases kind <;> cases h <;> exact ⟨_, by decide, rfl⟩

theorem assignPiece_spec {op : Option Kind} (h : ∀ kind ∈ op, kind.isCompound) :
    (assignPiece op).Valid ∧ (assignPiece op).trails ∧ (assignPiece op).leads := by
  cases op with
  | none => exact ⟨trivial, rfl, rfl⟩
  | some kind =>
      obtain ⟨p, hp, hpiece⟩ := assignPiece_compound (h kind rfl)
      rw [hpiece]
      exact ⟨hp, rfl, rfl⟩

theorem getLast?_inParens (ps qs : List Piece) :
    (qs ++ inParens ps).getLast? = some (.sign .closeParen) := by
  rw [inParens, ← List.cons_append, ← List.append_assoc, List.getLast?_concat]

theorem isBareInteger_number {value : Number} {span : Span} (hfinite : value.isFinite)
    (hsign : value.negative = false) :
    ({ tree := .number value span } : Site).isBareInteger = value.isBareLiteral := by
  have hnan : value.isNaN = false := Number.isNaN_of_isFinite hfinite
  have hbelow : value.isBelowZero = false := by simp [Number.isBelowZero, hsign]
  show (true && !false && (!value.isNaN && !value.isBelowZero && _)) = _
  rw [hnan, hbelow]
  rfl

/-- Nothing that binds as tightly as a member access ends with a number that a point would
become a part of, except such a number itself. -/
theorem isBare_getLast_of_isExpression {t : Tree} (h : t.IsExpression options)
    (hmember : Precedence.member ≤ Precedence.of t.kind)
    (hbare : ({ tree := t } : Site).isBareInteger = false) :
    ∀ p ∈ (t.pieces options shy).getLast?, p.isBare = false := by
  intro p hp
  cases h with
  | identifier =>
      cases hp
      rfl
  | number hfinite hsign =>
      rw [isBareInteger_number hfinite hsign] at hbare
      cases hp
      exact hbare
  | string =>
      cases hp
      rfl
  | constant hmem =>
      simp only [List.mem_cons, List.not_mem_nil, or_false] at hmem
      rcases hmem with rfl | rfl | rfl | rfl <;> cases hp <;> rfl
  | @binary kind span left right hkind =>
      have hlow : Precedence.of kind < Precedence.member := by
        cases kind <;> cases hkind <;> decide
      exact absurd hmember (Nat.not_le.mpr hlow)
  | @unary kind span operand hkind =>
      have hlow : Precedence.of kind < Precedence.member := by
        cases kind <;> cases hkind <;> decide
      exact absurd hmember (Nat.not_le.mpr hlow)
  | @update kind span trailing operand hkind =>
      have hlow : Precedence.of kind < Precedence.member := by
        rcases hkind with rfl | rfl <;> decide
      exact absurd hmember (Nat.not_le.mpr hlow)
  | assign => exact absurd (show Precedence.member ≤ Precedence.of .assign from hmember) (by decide)
  | conditional =>
      exact absurd (show Precedence.member ≤ Precedence.of .conditional from hmember) (by decide)
  | comma => exact absurd (show Precedence.member ≤ Precedence.of .comma from hmember) (by decide)
  | dot =>
      rw [Tree.pieces_dot, List.getLast?_append] at hp
      cases hp
      rfl
  | index =>
      rw [Tree.pieces_index, ← List.cons_append, ← List.append_assoc, List.getLast?_concat] at hp
      cases hp
      rfl
  | call =>
      rw [Tree.pieces_call, getLast?_inParens] at hp
      cases hp
      rfl
  | newBare => exact absurd (show Precedence.member ≤ Precedence.of .newBare from hmember) (by decide)
  | newArgs =>
      rw [Tree.pieces_newArgs, ← List.cons_append, getLast?_inParens] at hp
      cases hp
      rfl
  | arrayInit =>
      rw [Tree.pieces_arrayInit, ← List.cons_append, List.getLast?_concat] at hp
      cases hp
      rfl
  | objectInit =>
      rw [Tree.pieces_objectInit, ← List.cons_append, List.getLast?_concat] at hp
      cases hp
      rfl

/-- The object of a member access is a phrase behind which a point can stand. -/
theorem phrase_asObject {t : Tree} (h : t.IsExpression options)
    (hphrase : ∀ shy, Phrase (t.pieces options shy)) :
    Phrase ((t.asPart options).asObject shy) ∧
      ∀ p ∈ ((t.asPart options).asObject shy).getLast?, p.isBare = false := by
  have hparens : ∀ shy, Phrase (inParens (t.pieces options shy)) ∧
      ∀ p ∈ (inParens (t.pieces options shy)).getLast?, p.isBare = false := by
    refine fun shy => ⟨phrase_inParens (.of_phrase (hphrase shy)), fun p hp => ?_⟩
    rw [← List.nil_append (inParens _), getLast?_inParens] at hp
    cases hp
    rfl
  have hpieces : (t.asPart options).asObject shy =
      if ({ tree := t } : Site).isBareInteger then inParens (t.pieces options shy)
      else t.piecesWithin options Precedence.member shy := rfl
  rw [hpieces]
  by_cases hbare : ({ tree := t } : Site).isBareInteger
  · rw [if_pos hbare]
    exact hparens shy
  · rw [if_neg hbare]
    by_cases henclosed : Enclosed Precedence.member shy t
    · rw [Tree.piecesWithin_of_enclosed henclosed]
      exact hparens false
    · have hmember := Nat.le_of_not_lt fun hlow => henclosed (.inl hlow)
      rw [Tree.piecesWithin_of_not_enclosed henclosed]
      exact ⟨hphrase shy, isBare_getLast_of_isExpression h hmember (by simpa using hbare)⟩

theorem phrase_asCallee {t : Tree} (h : ∀ shy, Phrase (t.pieces options shy)) :
    Phrase ((t.asPart options).asCallee shy) := by
  unfold Part.asCallee
  split
  · exact phrase_inParens (.of_phrase (phrase_within h _))
  · exact h shy

theorem items_itemPieces {ts : List Tree}
    (h : ∀ t ∈ ts, Items (t.piecesWithin options Precedence.assignment shy)) :
    Items (Tree.itemPieces options ts shy) := by
  refine items_commaList _ fun ps hps => ?_
  obtain ⟨t, ht, rfl⟩ := List.mem_map.mp hps
  exact h t ht

theorem phrase_key {key : Tree} (h : key.IsKey options) : Phrase (key.pieces options shy) := by
  cases h with
  | @name name span hname => exact .single (p := .word name) hname rfl rfl
  | @string text span htext =>
      exact .single (p := .string options.asciiThreshold text) htext rfl rfl
  | @number value span hfinite hsign hback =>
      exact .single (p := .number value) ⟨hfinite, hsign, hback⟩ rfl rfl

/-- The pieces of an expression form a phrase. -/
theorem phrase_of_isExpression {t : Tree} (h : t.IsExpression options) (shy : Bool) :
    Phrase (t.pieces options shy) := by
  induction h generalizing shy with
  | @identifier name span hname => exact .single (p := .word name) hname rfl rfl
  | @number value span hfinite hsign hback =>
      exact .single (p := .number value) ⟨hfinite, hsign, hback⟩ rfl rfl
  | @string text span htext =>
      exact .single (p := .string options.asciiThreshold text) htext rfl rfl
  | @constant kind span hmem =>
      simp only [List.mem_cons, List.not_mem_nil, or_false] at hmem
      rcases hmem with rfl | rfl | rfl | rfl
      all_goals exact .single (p := .word _) rfl rfl rfl
  | binary hkind _ _ hleft hright =>
      rw [Tree.pieces_binary hkind]
      obtain ⟨hvalid, htrails, hleads⟩ := operatorPiece_binary hkind
      exact (phrase_within hleft _).between hvalid htrails hleads (phrase_within hright _)
  | unary hkind _ h =>
      rw [Tree.pieces_unary hkind]
      obtain ⟨hvalid, hstarts, hleads⟩ := operatorPiece_unary hkind
      exact .prepend hvalid hstarts hleads (phrase_within h _)
  | @update kind span trailing operand hkind _ _ h =>
      rw [Tree.pieces_update hkind]
      cases trailing with
      | true =>
          refine (phrase_within h _).append ?_ ?_ ?_
          all_goals rcases hkind with rfl | rfl
          all_goals trivial
      | false =>
          refine .prepend ?_ ?_ ?_ (phrase_within h _)
          all_goals rcases hkind with rfl | rfl
          all_goals trivial
  | assign hop _ _ _ htarget hvalue =>
      rw [Tree.pieces_assign]
      obtain ⟨hvalid, htrails, hleads⟩ := assignPiece_spec hop
      exact (phrase_within htarget _).between hvalid htrails hleads (phrase_within hvalue _)
  | conditional _ _ _ hcondition hthen helse =>
      rw [Tree.pieces_conditional]
      exact (phrase_within hcondition _).between (p := .sign .question) trivial rfl rfl
        ((phrase_within hthen _).between (p := .sign .colon) trivial rfl rfl
          (phrase_within helse _))
  | @comma span parts hlength _ h =>
      rw [Tree.pieces_items (.inr rfl), Tree.itemPieces]
      cases parts with
      | nil => cases hlength
      | cons first rest =>
          refine phrase_append_commaRest (phrase_within (h first List.mem_cons_self) _) _ ?_
          intro ps hps
          obtain ⟨t, ht, rfl⟩ := List.mem_map.mp hps
          exact phrase_within (h t (List.mem_cons_of_mem first ht)) _
  | @dot span nameSpan object name hobject hname h =>
      rw [Tree.pieces_dot]
      obtain ⟨hphrase, hsolid⟩ := phrase_asObject hobject h
      exact hphrase.member hsolid hname
  | index _ _ hobject hposition =>
      rw [Tree.pieces_index]
      exact Items.apply (p := .sign .openBracket) (phrase_within hobject _) rfl rfl
        (.of_phrase (phrase_within hposition _)) rfl rfl
  | call _ _ hcallee hargs =>
      rw [Tree.pieces_call]
      exact Items.apply (p := .sign .openParen) (phrase_within hcallee _) rfl rfl
        (items_itemPieces fun t ht => .of_phrase (phrase_within (hargs t ht) _)) rfl rfl
  | newBare _ h =>
      rw [Tree.pieces_newBare]
      exact .prepend (p := .word "new") rfl rfl rfl (phrase_asCallee h)
  | newArgs _ _ h hargs =>
      rw [Tree.pieces_newArgs]
      refine .prepend (p := .word "new") rfl rfl rfl ?_
      exact Items.apply (p := .sign .openParen) (phrase_asCallee h) rfl rfl
        (items_itemPieces fun t ht => .of_phrase (phrase_within (hargs t ht) _)) rfl rfl
  | @arrayInit span elements _ hholes h =>
      have hitems : Items (Tree.itemPieces options elements shy) := by
        refine items_itemPieces fun t ht => ?_
        by_cases hkind : t.kind = .hole
        · obtain ⟨span, rfl⟩ := hholes t ht hkind
          exact .nil
        · exact .of_phrase (phrase_within (h t ht hkind) _)
      rw [Tree.pieces_arrayInit]
      refine Items.enclose (p := .sign .openBracket) rfl rfl ?_ rfl rfl
      split
      · exact hitems.comma false .nil
      · rwa [List.append_nil]
  | objectInit hkeys _ h =>
      rw [Tree.pieces_objectInit]
      refine Items.enclose (p := .sign .openBrace) rfl rfl ?_ rfl rfl
      refine items_commaList _ fun ps hps => ?_
      simp only [List.map_map, List.mem_map, Function.comp_def] at hps
      obtain ⟨f, hf, rfl⟩ := hps
      rw [Tree.pieces_field]
      exact .of_phrase ((phrase_key (hkeys f hf)).between (p := .sign .colon) trivial rfl rfl
        (phrase_within (h f hf) _))

end Printer

end ScriptMin
