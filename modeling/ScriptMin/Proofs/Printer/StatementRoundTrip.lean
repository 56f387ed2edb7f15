import ScriptMin.Proofs.Printer.Statements

/-!
Structured statements survive being written and read, up to the braces that the printer adds
where an `else` would join an inner `if`.
-/

namespace ScriptMin

open ScriptMin.Grammar ScriptMin.Printer ScriptMin.Stream Text

namespace Printer

variable {options : PrintOptions} {line : Nat} {labels : List String} {span : Span}
  {t condition body : Tree} {part : Bool → List Piece}

/-! ### Roles do not matter to the printer -/

theorem print_withRole (depth : Nat) (mode : Mode) (t : Tree) (role : Role)
    (underCall soleArgument : Bool) :
    print depth mode ⟨t.withRole role, underCall, soleArgument⟩ =
      print depth mode ⟨t, underCall, soleArgument⟩ := by
  cases t
  cases depth
  · rfl
  · cases mode <;> rfl

/-- What is written for an expression in a statement. -/
theorem writes_expression (h : t.IsExpression options) {depth : Nat} {role : Role}
    (hdepth : (t.withRole role).depth ≤ depth) (underCall soleArgument : Bool) :
    Writes options false
      (print depth (.expression Precedence.comma) ⟨t.withRole role, underCall, soleArgument⟩)
      (t.pieces options) := by
  rw [print_withRole, ← Tree.piecesWithin_comma]
  exact (worded_of_isExpression h).within (by rwa [Tree.depth_withRole] at hdepth) _ _ _

theorem writes_wordHead {self : Printer.Self} {text : String} (word : String) {site : Site}
    {ps : List Piece} (htext : text.toList = word.toList ++ ['(']) (hword : isName word)
    (h : Writes options false (self (.expression Precedence.comma) site) ps) :
    Writes options false (wordHead self text (some site)) (.word word :: inParens ps) :=
  (Writes.wordParen htext hword).bind (h.bind (.write (.sign .closeParen) rfl))

theorem loose_wordHead {word : String} (hword : isName word) (h : t.IsExpression options) :
    Loose (.word word :: inParens (t.pieces options)) :=
  (Loose.word hword).append (.parens (.of_phrase (phrase_of_isExpression h false)))

theorem map_wordHead (word : String) (ps : List Piece) (rest : List Atom) :
    (.word word :: inParens ps : List Piece).map Piece.atom ++ rest =
      (Piece.word word).atom :: .sign .openParen ::
        (ps.map Piece.atom ++ .sign .closeParen :: rest) := by
  rw [List.map_cons, Tree.map_inParens, List.cons_append, List.cons_append, List.append_assoc]
  rfl

theorem derives_of_isExpression (h : t.IsExpression options) :
    Derives line false 1 t.Same ((t.pieces options).map Piece.atom) :=
  (rereads_of_isExpression h line).derives 1 (by omega) (by omega) (by omega)
    (one_le_precedence t.kind)

theorem fenced_of_isExpression (h : t.IsExpression options) : t.fenced = t :=
  Tree.fenced_of_not_isStatement (isStatement_of_isExpression h)

theorem map_semicolonPieces (kept : Bool) :
    (semicolonPieces kept).map Piece.atom = semicolonAtoms kept := by
  cases kept <;> rfl

theorem map_inSequence (kept : Bool) (parts : List (Bool → List Piece)) :
    (inSequence kept parts).map Piece.atom =
      inSequence kept (parts.map fun part kept => (part kept).map Piece.atom) := by
  induction parts with
  | nil => rfl
  | cons part rest ih =>
      rw [inSequence, List.map_append, ih, List.map_cons, inSequence, List.isEmpty_map]

theorem endsWithOpenIf_block (h : t.kind = .block) : endsWithOpenIf t = false := by
  obtain ⟨head, children⟩ := t
  rw [endsWithOpenIf, show head.kind = .block from h]

/-! ### The start of an expression statement -/

/-- Pieces that are not taken for a block or a labelled statement. -/
structure Unambiguous (ps : List Piece) : Prop where
  no_brace : ∀ p ∈ ps.head?, p ≠ .sign .openBrace
  no_label : ∀ name, ps.head? = some (.word name) → ∀ p ∈ ps.tail.head?, p ≠ .sign .colon

namespace Unambiguous

variable {ps qs : List Piece} {p : Piece}

theorem cons (hp : p ≠ .sign .openBrace) (hps : ∀ q ∈ ps.head?, q ≠ .sign .colon) :
    Unambiguous (p :: ps) := by
  refine ⟨?_, fun _ _ => hps⟩
  rintro _ ⟨⟩
  exact hp

theorem sign (p : Punctuator) (hp : p ≠ .openBrace) (ps : List Piece) :
    Unambiguous (.sign p :: ps) := by
  refine ⟨?_, nofun⟩
  rintro _ ⟨⟩ heq
  exact hp (Piece.sign.inj heq)

theorem append (h : Unambiguous ps) (hne : ps ≠ []) (hp : p ≠ .sign .colon) :
    Unambiguous (ps ++ p :: qs) := by
  obtain ⟨first, rest, rfl⟩ := List.exists_cons_of_ne_nil hne
  refine ⟨h.no_brace, fun name hname => ?_⟩
  cases rest with
  | nil =>
      rintro _ ⟨⟩
      exact hp
  | cons => exact h.no_label name hname

theorem inParens (ps : List Piece) : Unambiguous (inParens ps) :=
  sign .openParen nofun _

theorem within (h : ∀ shy, Unambiguous (t.pieces options shy)) (least : Nat) (shy : Bool) :
    Unambiguous (t.piecesWithin options least shy) := by
  by_cases henclosed : Enclosed least shy t
  · rw [Tree.piecesWithin_of_enclosed henclosed]
    exact inParens _
  · rw [Tree.piecesWithin_of_not_enclosed henclosed]
    exact h shy

/-- An expression that starts with another one, behind which an operator stands. -/
theorem operand (ht : t.IsExpression options) (h : ∀ shy, Unambiguous (t.pieces options shy))
    (least : Nat) (shy : Bool) (hp : p ≠ .sign .colon) :
    Unambiguous (t.piecesWithin options least shy ++ p :: qs) :=
  (within h least shy).append (phrase_within (phrase_of_isExpression ht) least).ne_nil hp

end Unambiguous

theorem Piece.eq_sign_of_kind {p : Piece} {sign : Punctuator} (h : p.atom.kind = .punctuator sign)
    (hsign : sign ≠ .assign ∧ sign ≠ .comma) : p = .sign sign := by
  cases p with
  | word text =>
      have hword : wordKind text = .punctuator sign := h
      unfold wordKind at hword
      split at hword <;> cases hword
  | sign p =>
      cases h
      rfl
  | compound op =>
      cases h
      exact absurd rfl hsign.1
  | comma spaced =>
      cases h
      exact absurd rfl hsign.2
  | _ => cases h

theorem Piece.admits_atom (p : Piece) : p.atom.admits false := by
  cases p with
  | word text => exact admits_word text false
  | sign p => cases p <;> rfl
  | compound op => cases op <;> rfl
  | _ => rfl

/-- What the printer looks for is what the grammar looks for. -/
theorem Unambiguous.startsExpression {ps : List Piece} (h : Unambiguous ps) :
    StartsExpression (ps.map Piece.atom) := by
  cases ps with
  | nil => exact ⟨nofun, nofun, rfl⟩
  | cons p rest =>
      refine ⟨fun hkind => ?_, fun name hkind hcolon => ?_, ?_⟩
      · exact h.no_brace p rfl (Piece.eq_sign_of_kind hkind (by decide))
      · cases rest with
        | nil => cases hcolon
        | cons q rest =>
            cases p with
            | word text =>
                exact h.no_label text rfl q rfl (Piece.eq_sign_of_kind hcolon (by decide))
            | _ => cases hkind
      · cases rest with
        | nil => rfl
        | cons q rest => exact q.admits_atom

theorem Phrase.no_colon {ps : List Piece} (h : Phrase ps) : ∀ p ∈ ps.head?, p ≠ .sign .colon := by
  rintro p hp rfl
  obtain ⟨first, hfirst, hstarts⟩ := h.starts
  cases hfirst.symm.trans hp
  cases hstarts

theorem operatorPiece_ne (kind : Kind) {p : Punctuator} (hp : p = .colon ∨ p = .openBrace) :
    operatorPiece kind ≠ .sign p := by
  intro h
  have htext : (kind.operator?.getD "").toList = p.text.toList := by
    rw [← Piece.text_ofText]
    exact congrArg Piece.text h
  have hother : kind.operator?.getD "" ≠ ":" ∧ kind.operator?.getD "" ≠ "\x7b" := by
    cases kind <;> decide
  rcases hp with rfl | rfl
  · exact hother.1 (String.toList_inj.mp htext)
  · exact hother.2 (String.toList_inj.mp htext)

theorem assignPiece_ne {op : Option Kind} (h : ∀ kind ∈ op, kind.isCompound) :
    assignPiece op ≠ .sign .colon := by
  cases op with
  | none => exact nofun
  | some kind =>
      obtain ⟨p, -, hpiece⟩ := assignPiece_compound (h kind rfl)
      rw [hpiece]
      exact nofun

/-- The printer looks for the start of a statement exactly where the grammar does. -/
theorem unambiguous_of_isExpression (h : t.IsExpression options) (hstart : startsAmbiguously t = false)
    (shy : Bool) : Unambiguous (t.pieces options shy) := by
  induction h generalizing shy with
  | identifier => exact .cons (by simp) (by simp)
  | number => exact .cons (by simp) (by simp)
  | string => exact .cons (by simp) (by simp)
  | constant hmem =>
      simp only [List.mem_cons, List.not_mem_nil, or_false] at hmem
      rcases hmem with rfl | rfl | rfl | rfl <;> exact .cons (by simp) (by simp)
  | @binary kind span left right hkind hleft _ ih =>
      have hleftStart : startsAmbiguously left = false := by
        cases kind <;> cases hkind <;> exact hstart
      rw [Tree.pieces_binary hkind]
      exact .operand hleft (ih hleftStart) _ _ (operatorPiece_ne kind (.inl rfl))
  | unary hkind h =>
      rw [Tree.pieces_unary hkind]
      exact .cons (operatorPiece_ne _ (.inr rfl))
        (phrase_within (phrase_of_isExpression h) _).no_colon
  | @update kind span trailing operand hkind _ h ih =>
      rw [Tree.pieces_update hkind]
      cases trailing with
      | true =>
          have hoperand : startsAmbiguously operand = false := by
            rcases hkind with rfl | rfl <;> exact hstart
          exact .operand h (ih hoperand) _ _ (operatorPiece_ne kind (.inl rfl))
      | false =>
          exact .cons (operatorPiece_ne kind (.inr rfl))
            (phrase_within (phrase_of_isExpression h) _).no_colon
  | assign hop _ htarget _ ih =>
      rw [Tree.pieces_assign]
      exact .operand htarget (ih hstart) _ _ (assignPiece_ne hop)
  | conditional hcondition _ _ ih =>
      rw [Tree.pieces_conditional]
      exact .operand hcondition (ih hstart) _ _ (by simp)
  | @comma span parts hlength hparts ih =>
      rw [Tree.pieces_items (.inr rfl), Tree.itemPieces]
      obtain - | ⟨first, - | ⟨second, rest⟩⟩ := parts
      · simp at hlength
      · simp at hlength
      · exact .operand (hparts first (by simp)) (ih first (by simp) hstart) _ _ (by simp)
  | @dot span nameSpan object name hobject _ ih =>
      rw [Tree.pieces_dot, Part.asObject]
      split
      · exact (Unambiguous.inParens _).append (by simp [inParens]) (by simp)
      · exact .operand hobject (ih hstart) _ _ (by simp)
  | index hobject _ ih =>
      rw [Tree.pieces_index]
      exact .operand hobject (ih hstart) _ _ (by simp)
  | call hcallee _ ih =>
      rw [Tree.pieces_call]
      exact .operand hcallee (ih hstart) _ _ (by simp)
  | newBare hcallee =>
      rw [Tree.pieces_newBare]
      exact .cons (by simp) (phrase_asCallee (phrase_of_isExpression hcallee)).no_colon
  | newArgs hcallee =>
      rw [Tree.pieces_newArgs]
      refine .cons (by simp) ?_
      rw [(phrase_asCallee (phrase_of_isExpression hcallee)).head?_append]
      exact (phrase_asCallee (phrase_of_isExpression hcallee)).no_colon
  | arrayInit =>
      rw [Tree.pieces_arrayInit]
      exact .sign .openBracket (by simp) _
  | objectInit => cases hstart

/-! ### Heads of `for` -/

def optionalPieces (options : PrintOptions) (shy : Bool) : Option Tree → List Piece
  | some t => t.piecesWithin options Precedence.comma shy
  | none => []

section Optional

variable {expr : Option Tree}

theorem items_optionalPieces (h : ∀ t ∈ expr, t.IsExpression options) (shy : Bool) :
    Items (optionalPieces options shy expr) := by
  cases expr with
  | none => exact .nil
  | some t => exact .of_phrase (phrase_within (phrase_of_isExpression (h t rfl)) _)

theorem derivesPart_optionalPieces (h : ∀ t ∈ expr, t.IsExpression options) (shy : Bool) :
    DerivesPart line shy expr ((optionalPieces options shy expr).map Piece.atom) := by
  cases expr with
  | none => exact .none
  | some t => exact .some ((rereads_of_isExpression (h t rfl) line).within (by decide) (by decide))

theorem writes_optional (h : ∀ t ∈ expr, t.IsExpression options) (role : Role) {depth : Nat}
    (hdepth : ∀ t ∈ expr, t.depth ≤ depth) :
    Writes options false
      (optional (print depth) Precedence.comma (expr.map fun t => ⟨t.withRole role, false, false⟩))
      (optionalPieces options false expr) := by
  cases expr with
  | none => exact .pure
  | some t =>
      show Writes options false (print depth _ _) _
      rw [print_withRole]
      exact (worded_of_isExpression (h t rfl)).within (hdepth t rfl) _ _ _

/-- In the first part of the head the printer is shy of `in`. -/
theorem writes_forPart (h : ∀ t ∈ expr, t.IsExpression options) (role : Role) {depth : Nat}
    (hdepth : ∀ t ∈ expr, t.depth ≤ depth) :
    Writes options false
      (expr.elim (pure ()) fun t =>
        forPart (print depth) Precedence.comma ⟨t.withRole role, false, false⟩)
      (optionalPieces options true expr) := by
  cases expr with
  | none => exact .pure
  | some t =>
      have hkind : ∀ kind : Kind, kind.isStatement = false → kind.isDeclarationList = false := by
        intro kind
        cases kind <;> decide
      have hlist := hkind t.kind (isStatement_of_isExpression (h t rfl))
      refine Writes.forbidIn ?_
      rw [if_neg (by simp [Site.kind, hlist]), print_withRole]
      exact (worded_of_isExpression (h t rfl)).within (hdepth t rfl) _ _ _

end Optional

/-! ### Statements that come back -/

/-- The printer writes a statement in the given pieces, and the grammar reads them as the
statement with its fences. -/
structure Transcribes (options : PrintOptions) (line : Nat) (labels : List String) (t : Tree)
    (part : Bool → List Piece) : Prop where
  writes : ∀ depth, t.depth ≤ depth → ∀ underCall soleArgument,
    WritesStatement options (print depth .statement ⟨t, underCall, soleArgument⟩) part
  passage : Passage part
  reads : ReadsStatement line labels (endsWithOpenIf t) t.fenced
    fun kept => (part kept).map Piece.atom

namespace Transcribes

theorem withRole (h : Transcribes options line labels t part) {depth : Nat} {role : Role}
    (hdepth : (t.withRole role).depth ≤ depth) (underCall soleArgument : Bool) :
    WritesStatement options (print depth .statement ⟨t.withRole role, underCall, soleArgument⟩)
      part := by
  rw [print_withRole]
  exact h.writes depth (by rwa [Tree.depth_withRole] at hdepth) _ _

/-- A statement is written by the form of its kind. -/
theorem of_form {head : Head} {children : List Tree}
    (hwrites : ∀ depth, (∀ c ∈ children, c.depth ≤ depth) → ∀ underCall soleArgument,
      WritesStatement options
        (statement (print depth) ⟨.node head children, underCall, soleArgument⟩) part)
    (hpassage : Passage part)
    (hreads : ReadsStatement line labels (endsWithOpenIf (.node head children))
      (Tree.node head children).fenced fun kept => (part kept).map Piece.atom) :
    Transcribes options line labels (.node head children) part where
  writes := by
    intro depth hdepth underCall soleArgument
    obtain ⟨depth, rfl⟩ := Nat.exists_eq_add_one.mpr ((Tree.depth_pos _).trans_le hdepth)
    rw [Tree.depth] at hdepth
    exact hwrites depth (fun c hc => (Tree.depth_le_depthList hc).trans (by omega)) underCall
      soleArgument
  passage := hpassage
  reads := hreads

/-- A statement that is a word, an expression in parentheses and another statement. -/
theorem of_head {head : Head} {role role' : Role} (text word : String)
    (hcondition : condition.IsExpression options) (hbody : Transcribes options line labels body part)
    (htext : text.toList = word.toList ++ ['(']) (hword : isName word)
    (hform : ∀ depth underCall soleArgument,
      statement (print depth)
        ⟨.node head [condition.withRole role, body.withRole role'], underCall, soleArgument⟩ = (do
        wordHead (print depth) text (some ⟨condition.withRole role, false, false⟩)
        print depth .statement ⟨body.withRole role', false, false⟩))
    (hreads : ReadsStatement line labels
      (endsWithOpenIf (.node head [condition.withRole role, body.withRole role']))
      (Tree.node head [condition.withRole role, body.withRole role']).fenced
      fun kept => (Piece.word word).atom :: .sign .openParen ::
        ((condition.pieces options).map Piece.atom ++ .sign .closeParen ::
          (part kept).map Piece.atom)) :
    Transcribes options line labels (.node head [condition.withRole role, body.withRole role'])
      fun kept => (.word word :: inParens (condition.pieces options)) ++ part kept := by
  refine .of_form (fun depth hdepth underCall soleArgument => ?_) ?_ ?_
  · have hvalue := writes_expression hcondition (hdepth (condition.withRole role) (by simp)) false false
    have hbody := hbody.withRole (hdepth (body.withRole role') (by simp)) false false
    rw [hform]
    exact (writes_wordHead word htext hword hvalue).andThen hbody
  · exact .prepend (loose_wordHead hword hcondition) hbody.passage
  · simp only [List.map_append, map_wordHead]
    exact hreads

theorem whileLoop (hcondition : condition.IsExpression options)
    (hbody : Transcribes options line labels body part) :
    Transcribes options line labels
      (.ofList .whileLoop span [condition.withRole .condition, body.withRole .body])
      fun kept => (.word "while" :: inParens (condition.pieces options)) ++ part kept := by
  refine .of_head "while(" "while" hcondition hbody rfl (by decide)
    (fun depth underCall soleArgument => ?_) ?_
  · cases condition
    cases body
    rfl
  · have hopen : endsWithOpenIf (.ofList .whileLoop span
        [condition.withRole .condition, body.withRole .body]) = endsWithOpenIf body := by
      cases condition
      cases body
      rfl
    rw [← Tree.ofList, hopen, Tree.fenced_ofList .whileLoop rfl (by simp)]
    simp only [List.map_cons, List.map_nil, Tree.fenced_withRole, fenced_of_isExpression hcondition]
    exact readsStatement_whileLoop (derives_of_isExpression hcondition) hbody.reads span

theorem withStmt (hobject : condition.IsExpression options)
    (hbody : Transcribes options line labels body part) :
    Transcribes options line labels
      (.ofList .withStmt span [condition.withRole .object, body.withRole .body])
      fun kept => (.word "with" :: inParens (condition.pieces options)) ++ part kept := by
  refine .of_head "with(" "with" hobject hbody rfl (by decide)
    (fun depth underCall soleArgument => ?_) ?_
  · cases condition
    cases body
    rfl
  · have hopen : endsWithOpenIf (.ofList .withStmt span
        [condition.withRole .object, body.withRole .body]) = endsWithOpenIf body := by
      cases condition
      cases body
      rfl
    rw [← Tree.ofList, hopen, Tree.fenced_ofList .withStmt rfl (by simp)]
    simp only [List.map_cons, List.map_nil, Tree.fenced_withRole, fenced_of_isExpression hobject]
    exact readsStatement_withStmt (derives_of_isExpression hobject) hbody.reads span

theorem ifThen (hcondition : condition.IsExpression options)
    (hthen : Transcribes options line labels body part) :
    Transcribes options line labels
      (.ofList .ifElse span [condition.withRole .condition, body.withRole .thenPart])
      fun kept => (.word "if" :: inParens (condition.pieces options)) ++ part kept := by
  refine .of_head "if(" "if" hcondition hthen rfl (by decide)
    (fun depth underCall soleArgument => ?_) ?_
  · cases condition
    cases body
    rfl
  · have hopen : endsWithOpenIf (.ofList .ifElse span
        [condition.withRole .condition, body.withRole .thenPart]) = true := by
      cases condition
      cases body
      rfl
    rw [← Tree.ofList, hopen, Tree.fenced_ifThen (fenced_of_isExpression hcondition)]
    exact readsStatement_ifThen (derives_of_isExpression hcondition) hthen.reads span

/-- Both parts of an `if`, the first one written and read in a way that leaves no `if` open. -/
theorem of_branches {thenTree elseTree : Tree} {thenPart elsePart : Bool → List Piece}
    (first : Nat → Writing Unit) (hcondition : condition.IsExpression options)
    (hfirst : ∀ depth, body.depth ≤ depth → WritesStatement options (first depth) thenPart)
    (hpassage : Passage thenPart)
    (hthen : ReadsStatement line labels false thenTree fun kept => (thenPart kept).map Piece.atom)
    (helse : Transcribes options line labels elseTree elsePart)
    (hform : ∀ depth underCall soleArgument,
      statement (print depth) ⟨.ofList .ifElse span [condition.withRole .condition,
        body.withRole .thenPart, elseTree.withRole .elsePart], underCall, soleArgument⟩ = (do
        wordHead (print depth) "if(" (some ⟨condition.withRole .condition, false, false⟩)
        first depth
        write "else"
        print depth .statement ⟨elseTree.withRole .elsePart, false, false⟩))
    (hfenced : (Tree.ofList .ifElse span [condition.withRole .condition, body.withRole .thenPart,
        elseTree.withRole .elsePart]).fenced =
      .ofList .ifElse span [condition.withRole .condition, thenTree.withRole .thenPart,
        elseTree.fenced.withRole .elsePart]) :
    Transcribes options line labels
      (.ofList .ifElse span [condition.withRole .condition, body.withRole .thenPart,
        elseTree.withRole .elsePart])
      fun kept => (.word "if" :: inParens (condition.pieces options)) ++
        (thenPart true ++ .word "else" :: elsePart kept) := by
  have hword : Loose [.word "else"] := .word (by decide)
  have hrest : Passage fun kept => .word "else" :: elsePart kept := .prepend hword helse.passage
  refine .of_form (fun depth hdepth underCall soleArgument => ?_) ?_ ?_
  · have hvalue := writes_expression hcondition (hdepth (condition.withRole .condition) (by simp))
      false false
    have hfirst := hfirst depth (by simpa using hdepth (body.withRole .thenPart) (by simp))
    have helse := helse.withRole (hdepth (elseTree.withRole .elsePart) (by simp)) false false
    rw [← Tree.ofList, hform]
    exact (writes_wordHead "if" rfl (by decide) hvalue).andThen
      (hfirst.bind ((Writes.write (.word "else") rfl).andThen helse) hrest)
  · exact .prepend (loose_wordHead (by decide) hcondition) (.prepend hpassage.loose hrest)
  · have hopen : endsWithOpenIf (.ofList .ifElse span [condition.withRole .condition,
        body.withRole .thenPart, elseTree.withRole .elsePart]) = endsWithOpenIf elseTree := by
      cases condition
      cases body
      cases elseTree
      rfl
    rw [← Tree.ofList, hopen, hfenced]
    simp only [List.map_append, map_wordHead]
    simp only [List.map_cons]
    exact readsStatement_ifElse (derives_of_isExpression hcondition) hthen helse.reads span

/-- A statement in braces. -/
theorem fence (h : Transcribes options line labels t part) (span : Span) :
    ReadsStatement line labels false (.ofList .block span [t.fenced]) fun _ =>
      (.sign .openBrace :: (part options.formatting.semicolon ++ [.sign .closeBrace])).map
        Piece.atom := by
  have hread := readsStatement_block (.cons ⟨_, h.reads⟩ .nil) options.formatting.semicolon false span
  simpa [inSequence, Piece.atom, Atom.sign] using hread

/-- Braces keep the `else` from joining an inner `if`. -/
theorem ifElse {elseTree : Tree} {elsePart : Bool → List Piece}
    (hcondition : condition.IsExpression options)
    (hthen : Transcribes options line labels body part) (hrole : body.head.role = none)
    (helse : Transcribes options line labels elseTree elsePart) :
    ∃ part', Transcribes options line labels
      (.ofList .ifElse span [condition.withRole .condition, body.withRole .thenPart,
        elseTree.withRole .elsePart]) part' := by
  have hform : ∀ depth underCall soleArgument,
      statement (print depth) ⟨.ofList .ifElse span [condition.withRole .condition,
        body.withRole .thenPart, elseTree.withRole .elsePart], underCall, soleArgument⟩ = (do
        wordHead (print depth) "if(" (some ⟨condition.withRole .condition, false, false⟩)
        if body.kind ≠ .block ∧ endsWithOpenIf body then
          write "\x7b"
          print depth .statement ⟨body.withRole .thenPart, false, false⟩
          closeBrace
        else print depth .statement ⟨body.withRole .thenPart, false, false⟩
        write "else"
        print depth .statement ⟨elseTree.withRole .elsePart, false, false⟩) := by
    cases condition
    cases body
    cases elseTree
    exact fun _ _ _ => rfl
  have hfenced : (Tree.ofList .ifElse span [condition.withRole .condition,
      body.withRole .thenPart, elseTree.withRole .elsePart]).fenced = _ :=
    Tree.fenced_branches (fenced_of_isExpression hcondition)
  by_cases hopen : body.kind ≠ .block ∧ endsWithOpenIf body
  · have hbraces := Loose.braces (hthen.passage.items options.formatting.semicolon)
    simp only [if_pos hopen] at hform hfenced
    rw [Tree.fence_withRole (by rwa [Tree.head_fenced])] at hfenced
    refine ⟨_, of_branches _ hcondition (fun depth hdepth => ?_) (.const hbraces nofun)
      (hthen.fence _) helse hform hfenced⟩
    have hbody := hthen.withRole (show (body.withRole .thenPart).depth ≤ depth by simpa using hdepth)
      false false
    exact ((Writes.write (.sign .openBrace) rfl).bind hbody.closeBrace).statement hbraces.items nofun
  · have hclosed : endsWithOpenIf body = false := by
      cases hends : endsWithOpenIf body with
      | false => rfl
      | true =>
          have hkind : body.kind = .block := by simpa [hends] using hopen
          exact absurd hends (by simp [endsWithOpenIf_block hkind])
    simp only [if_neg hopen] at hform hfenced
    refine ⟨_, of_branches _ hcondition ?_ hthen.passage (hclosed ▸ hthen.reads) helse hform hfenced⟩
    exact fun depth hdepth => hthen.withRole (by simpa using hdepth) false false

theorem doLoop (hbody : Transcribes options line labels body part)
    (hcondition : condition.IsExpression options) :
    Transcribes options line labels
      (.ofList .doLoop span [body.withRole .body, condition.withRole .condition])
      fun kept => .word "do" :: (part true ++
        ((.word "while" :: inParens (condition.pieces options)) ++ semicolonPieces kept)) := by
  have hword : Loose [.word "do"] := .word (by decide)
  have hhead : Loose (.word "while" :: inParens (condition.pieces options)) :=
    loose_wordHead (by decide) hcondition
  have hend := Passage.ended hhead.items (by simp)
  refine .of_form (fun depth hdepth underCall soleArgument => ?_) ?_ ?_
  · have hvalue := writes_expression hcondition (hdepth (condition.withRole .condition) (by simp))
      false false
    have hbody := hbody.withRole (hdepth (body.withRole .body) (by simp)) false false
    have hform : statement (print depth)
        ⟨.ofList .doLoop span [body.withRole .body, condition.withRole .condition],
          underCall, soleArgument⟩ = (do
        write "do"
        print depth .statement ⟨body.withRole .body, false, false⟩
        wordHead (print depth) "while(" (some ⟨condition.withRole .condition, false, false⟩)
        endStatement) := by
      cases condition
      cases body
      rfl
    rw [← Tree.ofList, hform]
    exact (Writes.write (.word "do") rfl).andThen
      (hbody.bind ((writes_wordHead "while" rfl (by decide) hvalue).endStatement hhead.items (by simp)) hend)
  · exact .prepend hword (.prepend hbody.passage.loose hend)
  · rw [← Tree.ofList, Tree.fenced_ofList .doLoop rfl (by simp)]
    simp only [List.map_cons, List.map_nil, Tree.fenced_withRole, fenced_of_isExpression hcondition]
    show ReadsStatement line labels false _ fun kept => Piece.atom (.word "do") :: List.map _ _
    simp only [List.map_append, map_wordHead, map_semicolonPieces]
    exact readsStatement_doLoop hbody.reads (derives_of_isExpression hcondition) span

theorem label {name : String} (hname : isName name) (hreserved : isReserved name = false)
    (hfresh : name ∉ labels) (hbody : Transcribes options line (name :: labels) body part) :
    Transcribes options line labels
      (.node { kind := .label, span, payload := .text name } [body.withRole .statement])
      fun kept => [.word name, .sign .colon] ++ part kept := by
  have hcolon : Loose [.sign .colon] := .sign (by decide +kernel)
  refine .of_form (fun depth hdepth underCall soleArgument => ?_) ?_ ?_
  · have hbody := hbody.withRole (hdepth (body.withRole .statement) (by simp)) false false
    have hform : statement (print depth)
        ⟨.node { kind := .label, span, payload := .text name } [body.withRole .statement],
          underCall, soleArgument⟩ = (do
        write name
        write ":"
        print depth .statement ⟨body.withRole .statement, false, false⟩) := by
      cases body
      rfl
    rw [hform]
    exact ((Writes.write (.word name) rfl).bind (.write (.sign .colon) rfl)).andThen hbody
  · exact .prepend ((Loose.word hname).append hcolon) hbody.passage
  · have hopen : endsWithOpenIf (.node { kind := .label, span, payload := .text name }
        [body.withRole .statement]) = endsWithOpenIf body := by
      cases body
      rfl
    have hfenced : (Tree.node { kind := .label, span, payload := .text name }
        [body.withRole .statement]).fenced = _ :=
      Tree.fenced_node rfl (show Kind.label ≠ .ifElse from nofun) _
    rw [hopen, hfenced]
    simp only [List.map_cons, List.map_nil, Tree.fenced_withRole, List.map_append]
    have hreads := readsStatement_label hfresh hbody.reads span
    simpa [Piece.atom, wordKind_of_not_isReserved hreserved, Atom.sign] using hreads

theorem throwStmt (h : t.IsExpression options) :
    Transcribes options line labels (.ofList .throwStmt span [t.withRole .exception])
      fun kept => (.word "throw" :: t.pieces options) ++ semicolonPieces kept := by
  have hword : Loose [.word "throw"] := .word (by decide)
  have hitems : Items (.word "throw" :: t.pieces options) :=
    hword.append_items (.of_phrase (phrase_of_isExpression h false))
  refine .of_form (fun depth hdepth underCall soleArgument => ?_) (.ended hitems (by simp)) ?_
  · have hvalue := writes_expression h (hdepth (t.withRole .exception) (by simp)) false false
    have hform : statement (print depth)
        ⟨.ofList .throwStmt span [t.withRole .exception], underCall, soleArgument⟩ = (do
        (do
          write "throw"
          print depth (.expression Precedence.comma) ⟨t.withRole .exception, false, false⟩)
        endStatement) := by
      cases t
      rfl
    rw [← Tree.ofList, hform]
    exact ((Writes.write (.word "throw") rfl).bind hvalue).endStatement hitems (by simp)
  · rw [← Tree.ofList, Tree.fenced_ofList .throwStmt rfl (by simp)]
    simp only [List.map_cons, List.map_nil, Tree.fenced_withRole, fenced_of_isExpression h,
      List.map_append, map_semicolonPieces]
    exact readsStatement_throwStmt (derives_of_isExpression h) _ span

theorem debuggerStmt : Transcribes options line labels (.leaf .debuggerStmt span)
    fun kept => [.word "debugger"] ++ semicolonPieces kept := by
  have hword : Loose [.word "debugger"] := .word (by decide)
  refine .of_form (fun depth _ underCall soleArgument => ?_) (.ended hword.items nofun) ?_
  · exact (Writes.write (.word "debugger") rfl).endStatement hword.items nofun
  · simp only [List.map_append, map_semicolonPieces]
    exact readsStatement_debuggerStmt _ span

theorem empty : Transcribes options line labels (.leaf .semicolon span)
    fun _ => [.sign .semicolon] := by
  have hsign : Loose [.sign .semicolon] := .sign (by decide +kernel)
  refine .of_form (fun depth _ underCall soleArgument => ?_) (.const hsign nofun) ?_
  · exact (Writes.write (.sign .semicolon) rfl).statement hsign.items nofun
  · exact readsStatement_empty _ span

/-- What is written for statements one after the other, behind what is written before them. -/
theorem writes_inOrder {ts : List Tree} {parts : Tree → Bool → List Piece}
    (h : ∀ t ∈ ts, Transcribes options line labels t (parts t)) {w : Writing Unit}
    (hw : WritesStatement options w part) {depth : Nat} (hdepth : ∀ t ∈ ts, t.depth ≤ depth)
    (site : Site) :
    WritesStatement options (do w; inOrder (print depth .statement) (ts.map site.below))
      fun kept => part (!(ts.map parts).isEmpty || kept) ++ inSequence kept (ts.map parts) := by
  refine hw.inOrder site ?_ fun part hpart => ?_
  · rw [List.forall₂_map_right_iff, List.forall₂_same]
    exact fun t ht => (h t ht).writes depth (hdepth t ht) _ _
  · obtain ⟨t, ht, rfl⟩ := List.mem_map.mp hpart
    exact (h t ht).passage

theorem readsStatements {ts : List Tree} {parts : Tree → Bool → List Piece}
    (h : ∀ t ∈ ts, Transcribes options line labels t (parts t)) :
    ReadsStatements line labels (ts.map Tree.fenced)
      ((ts.map parts).map fun part kept => (part kept).map Piece.atom) := by
  rw [ReadsStatements, List.forall₂_map_left_iff, List.forall₂_map_right_iff,
    List.forall₂_map_right_iff, List.forall₂_same]
  exact fun t ht => ⟨_, (h t ht).reads⟩

theorem items_inSequence {ts : List Tree} {parts : Tree → Bool → List Piece}
    (h : ∀ t ∈ ts, Transcribes options line labels t (parts t)) (kept : Bool) :
    Items (inSequence kept (ts.map parts)) := by
  refine Passage.items_inSequence (fun part hpart => ?_) kept
  obtain ⟨t, ht, rfl⟩ := List.mem_map.mp hpart
  exact (h t ht).passage

theorem block {ts : List Tree} {parts : Tree → Bool → List Piece}
    (h : ∀ t ∈ ts, Transcribes options line labels t (parts t)) :
    Transcribes options line labels (.ofList .block span ts) fun _ =>
      .sign .openBrace ::
        (inSequence options.formatting.semicolon (ts.map parts) ++ [.sign .closeBrace]) := by
  have hbraces := Loose.braces (items_inSequence h options.formatting.semicolon)
  refine .of_form (fun depth hdepth underCall soleArgument => ?_) (.const hbraces (by simp)) ?_
  · have hopen : WritesStatement options (write "\x7b") fun _ => [.sign .openBrace] :=
      (Writes.write (.sign .openBrace) rfl).statement (Loose.sign (by decide +kernel)).items (by simp)
    have hlist := writes_inOrder h hopen hdepth ⟨.ofList .block span ts, underCall, soleArgument⟩
    exact hlist.closeBrace.statement hbraces.items (by simp)
  · rw [← Tree.ofList, Tree.fenced_ofList .block rfl (by simp)]
    have hreads := readsStatement_block (readsStatements h) options.formatting.semicolon
      (endsWithOpenIf (.ofList .block span ts)) span
    simpa [map_inSequence, Piece.atom, Atom.sign] using hreads

/-- The pieces of an expression statement, in which the value may be put in parentheses. -/
theorem of_value {ps : List Piece} (w : Nat → Writing Unit) (h : t.IsExpression options)
    (hps : Phrase ps) (hunambiguous : Unambiguous ps)
    (hderives : Derives line false 1 t.Same (ps.map Piece.atom))
    (hwrites : ∀ depth, (t.withRole .expression).depth ≤ depth → Writes options false (w depth) ps)
    (hform : ∀ depth underCall soleArgument, statement (print depth)
      ⟨.ofList .semicolon span [t.withRole .expression], underCall, soleArgument⟩ = (do
        w depth
        endStatement)) :
    Transcribes options line labels (.ofList .semicolon span [t.withRole .expression])
      fun kept => ps ++ semicolonPieces kept := by
  have hitems : Items ps := .of_phrase hps
  refine .of_form (fun depth hdepth underCall soleArgument => ?_) (.ended hitems hps.ne_nil) ?_
  · rw [← Tree.ofList, hform]
    exact (hwrites depth (hdepth _ (by simp))).endStatement hitems hps.ne_nil
  · rw [← Tree.ofList, Tree.fenced_ofList .semicolon rfl (by simp)]
    simp only [List.map_cons, List.map_nil, Tree.fenced_withRole, fenced_of_isExpression h,
      List.map_append, map_semicolonPieces]
    exact readsStatement_expression hderives hunambiguous.startsExpression _ span

/-- An expression that starts like a block is put in parentheses. -/
theorem expression (h : t.IsExpression options) :
    ∃ part, Transcribes options line labels
      (.ofList .semicolon span [t.withRole .expression]) part := by
  have hphrase := phrase_of_isExpression h false
  have hform : ∀ depth underCall soleArgument, statement (print depth)
      ⟨.ofList .semicolon span [t.withRole .expression], underCall, soleArgument⟩ =
      (if startsAmbiguously t then do
        (do
          write "("
          print depth (.expression Precedence.comma) ⟨t.withRole .expression, false, false⟩
          write ")")
        endStatement
      else do
        print depth (.expression Precedence.comma) ⟨t.withRole .expression, false, false⟩
        endStatement) := by
    cases t
    exact fun _ _ _ => rfl
  cases hstart : startsAmbiguously t with
  | true =>
      simp only [hstart, if_true] at hform
      refine ⟨_, of_value _ h (phrase_inParens (.of_phrase hphrase)) (.inParens _) ?_
        (fun depth hdepth => writes_inParens (writes_expression h hdepth false false)) hform⟩
      rw [Tree.map_inParens]
      exact (rereads_of_isExpression h line).primary_inParens.derives.lower (by omega) (by omega)
  | false =>
      simp only [hstart, Bool.false_eq_true, if_false] at hform
      exact ⟨_, of_value _ h hphrase (unambiguous_of_isExpression h hstart false)
        (derives_of_isExpression h) (fun depth hdepth => writes_expression h hdepth false false) hform⟩

theorem forLoop {setup condition update : Option Tree}
    (hsetup : ∀ t ∈ setup, t.IsExpression options)
    (hcondition : ∀ t ∈ condition, t.IsExpression options)
    (hupdate : ∀ t ∈ update, t.IsExpression options)
    (hbody : Transcribes options line labels body part) :
    Transcribes options line labels
      (.ofList .forLoop span (Tree.part .setup setup ++ Tree.part .condition condition ++
        Tree.part .update update ++ [body.withRole .body]))
      fun kept => [.word "for", .sign .openParen] ++
        ((optionalPieces options true setup ++ [.sign .semicolon]) ++
          ((optionalPieces options false condition ++ [.sign .semicolon]) ++
            ((optionalPieces options false update ++ [.sign .closeParen]) ++ part kept))) := by
  have hsemicolon : Writes options false (write ";") [.sign .semicolon] := .write _ rfl
  have hparen : Writes options false (write ")") [.sign .closeParen] := .write _ rfl
  refine .of_form (fun depth hdepth underCall soleArgument => ?_) ?_ ?_
  · have hdepths : ∀ (t : Tree) (role : Role), t.withRole role ∈ Tree.part .setup setup ++
        Tree.part .condition condition ++ Tree.part .update update ++ [body.withRole .body] →
        t.depth ≤ depth := fun t role hmem => by simpa using hdepth _ hmem
    have hform : statement (print depth) ⟨.ofList .forLoop span (Tree.part .setup setup ++
          Tree.part .condition condition ++ Tree.part .update update ++ [body.withRole .body]),
          underCall, soleArgument⟩ = (do
        write "for("
        (do
          (setup.elim (pure ()) fun t =>
            forPart (print depth) Precedence.comma ⟨t.withRole .setup, false, false⟩)
          write ";")
        (do
          optional (print depth) Precedence.comma
            (condition.map fun t => ⟨t.withRole .condition, false, false⟩)
          write ";")
        (do
          optional (print depth) Precedence.comma
            (update.map fun t => ⟨t.withRole .update, false, false⟩)
          write ")")
        print depth .statement ⟨body.withRole .body, false, false⟩) := by
      rcases setup with _ | ⟨_, _⟩ <;> rcases condition with _ | ⟨_, _⟩ <;>
        rcases update with _ | ⟨_, _⟩ <;> cases body <;> rfl
    have hword : Writes options false (write "for(") [.word "for", .sign .openParen] :=
      .wordParen rfl (by decide)
    have hfirst := writes_forPart hsetup .setup
      fun t ht => hdepths t .setup (by simp [Tree.part, Option.mem_def.mp ht])
    have hsecond := writes_optional hcondition .condition
      fun t ht => hdepths t .condition (by simp [Tree.part, Option.mem_def.mp ht])
    have hthird := writes_optional hupdate .update
      fun t ht => hdepths t .update (by simp [Tree.part, Option.mem_def.mp ht])
    have hbody := hbody.withRole (hdepth (body.withRole .body) (by simp)) false false
    rw [← Tree.ofList, hform]
    exact hword.andThen ((hfirst.bind hsemicolon).andThen ((hsecond.bind hsemicolon).andThen
      ((hthird.bind hparen).andThen hbody)))
  · have hword : Loose [.word "for"] := .word (by decide)
    have hhead := hword.append (.sign (p := .openParen) (by decide +kernel))
    exact .prepend hhead (.prepend (.semicolon (items_optionalPieces hsetup true))
      (.prepend (.semicolon (items_optionalPieces hcondition false))
        (.prepend (.close (items_optionalPieces hupdate false) rfl (by decide +kernel)) hbody.passage)))
  · have hopen : endsWithOpenIf (.ofList .forLoop span (Tree.part .setup setup ++
        Tree.part .condition condition ++ Tree.part .update update ++ [body.withRole .body])) =
        endsWithOpenIf body := by
      rcases setup with _ | ⟨_, _⟩ <;> rcases condition with _ | ⟨_, _⟩ <;>
        rcases update with _ | ⟨_, _⟩ <;> cases body <;> rfl
    have hparts : ∀ (role : Role) (expr : Option Tree), (∀ t ∈ expr, t.IsExpression options) →
        (Tree.part role expr).map Tree.fenced = Tree.part role expr := by
      intro role expr hexpr
      cases expr with
      | none => rfl
      | some t => simp [Tree.part, fenced_of_isExpression (hexpr t rfl)]
    rw [← Tree.ofList, hopen, Tree.fenced_ofList .forLoop rfl (by simp)]
    simp only [List.map_append, List.map_cons, List.map_nil, Tree.fenced_withRole, hparts _ _ hsetup,
      hparts _ _ hcondition, hparts _ _ hupdate]
    have hreads := readsStatement_forLoop (derivesPart_optionalPieces hsetup true)
      (derivesPart_optionalPieces hcondition false) (derivesPart_optionalPieces hupdate false)
      hbody.reads span
    have hword : wordKind "for" = .keyword .kwFor := rfl
    simpa [Piece.atom, Atom.sign, Atom.word, hword] using hreads

end Transcribes

/-- Every statement is written in pieces that are read as that statement with its fences. -/
theorem exists_transcribes (h : t.IsStatement options labels) (line : Nat) :
    ∃ part, Transcribes options line labels t part := by
  induction h with
  | block _ ih =>
      choose! parts hparts using ih
      exact ⟨_, .block hparts⟩
  | expression hvalue => exact Transcribes.expression hvalue
  | empty => exact ⟨_, .empty⟩
  | ifThen hcondition _ ih =>
      obtain ⟨part, hpart⟩ := ih
      exact ⟨_, .ifThen hcondition hpart⟩
  | ifElse hcondition hthen _ ihthen ihelse =>
      obtain ⟨thenPart, hthenPart⟩ := ihthen
      obtain ⟨elsePart, helsePart⟩ := ihelse
      exact Transcribes.ifElse hcondition hthenPart hthen.role_eq_none helsePart
  | whileLoop hcondition _ ih =>
      obtain ⟨part, hpart⟩ := ih
      exact ⟨_, .whileLoop hcondition hpart⟩
  | doLoop _ hcondition ih =>
      obtain ⟨part, hpart⟩ := ih
      exact ⟨_, .doLoop hpart hcondition⟩
  | withStmt hobject _ ih =>
      obtain ⟨part, hpart⟩ := ih
      exact ⟨_, .withStmt hobject hpart⟩
  | label hname hreserved hfresh _ ih =>
      obtain ⟨part, hpart⟩ := ih
      exact ⟨_, .label hname hreserved hfresh hpart⟩
  | throwStmt hexception => exact ⟨_, .throwStmt hexception⟩
  | debuggerStmt => exact ⟨_, .debuggerStmt⟩
  | forLoop hsetup hcondition hupdate _ ih =>
      obtain ⟨part, hpart⟩ := ih
      exact ⟨_, .forLoop hsetup hcondition hupdate hpart⟩

/-! ### Scripts -/

theorem text_flush (o : Output) : o.flush.text = o.text := by
  obtain ⟨written, due, noIn⟩ := o
  cases due <;> rfl

theorem render_eq (t : Tree) : t.render options =
    ((print t.depth (modeOf t.kind) { tree := t }).run options {}).2.text :=
  rfl

theorem print_script (depth : Nat) (span : Span) (t : Tree) (ts : List Tree) :
    print (depth + 1) .statement { tree := .ofList .script span (t :: ts) } = (do
      print depth .statement ⟨t, false, false⟩
      inOrder (print depth .statement)
        (ts.map (Site.below { tree := .ofList .script span (t :: ts) }))) :=
  rfl

/-- The text of a script is that of its statements, each with its semicolon. -/
theorem render_script {ts : List Tree} {parts : Tree → Bool → List Piece}
    (h : ∀ t ∈ ts, Transcribes options line [] t (parts t)) (span : Span) :
    ((Tree.ofList .script span ts).render options).toList =
      spell none (inSequence true (ts.map parts)) := by
  have hitems := Transcribes.items_inSequence h true
  cases ts with
  | nil => rfl
  | cons t ts =>
      have hdepth : ∀ s ∈ t :: ts, s.depth ≤ Tree.depthList (t :: ts) :=
        fun s hs => Tree.depth_le_depthList hs
      obtain ⟨o, hrun, -, hsettled⟩ := Transcribes.writes_inOrder
        (fun s hs => h s (List.mem_cons_of_mem t hs))
        ((h t List.mem_cons_self).writes _ (hdepth t List.mem_cons_self) false false)
        (fun s hs => hdepth s (List.mem_cons_of_mem t hs))
        { tree := .ofList .script span (t :: ts) } {} rfl
      have hflush : o.flush = ({} : Output).writeAll (inSequence true ((t :: ts).map parts)) :=
        hsettled true
      have hdepth : (Tree.ofList .script span (t :: ts)).depth = Tree.depthList (t :: ts) + 1 := by
        rw [Tree.ofList, Tree.depth]
      have hmode : modeOf (Tree.ofList .script span (t :: ts)).kind = .statement := rfl
      rw [render_eq, hdepth, hmode, print_script, hrun, ← text_flush, hflush]
      exact text_writeAll hitems.valid

end Printer

/-- A script of structured statements is accepted when it has been written, and comes back as the
same script up to spans, marked parentheses and the braces that keep an `else` from joining an
inner `if`. -/
theorem parseScript_render {options : PrintOptions} {statements : List Tree}
    (h : ∀ t ∈ statements, t.IsStatement options []) (span : Span) (line : Nat) :
    ∃ t', parseScript ((Tree.ofList .script span statements).render options) line = .ok t' ∧
      t'.plain = (Tree.ofList .script span statements).fenced.plain := by
  choose! parts hparts using fun t ht => exists_transcribes (h t ht) line
  have hitems := Transcribes.items_inSequence hparts true
  have hrender := render_script hparts span
  have hreads := Transcribes.readsStatements hparts
  have hat : At line ((inSequence true (statements.map parts)).map Piece.atom)
      (ofChars line ((Tree.ofList .script span statements).render options).toList) := by
    rw [hrender]
    exact at_ofChars (fun c hc => no_break_of_mem_spell hitems.valid hc)
      (readable_spell hitems.valid hitems.chain none)
  have hlength : ((inSequence true (statements.map parts)).map Piece.atom).length ≤
      ((Tree.ofList .script span statements).render options).toList.length := by
    rw [hrender, List.length_map]
    exact length_le_spell hitems.valid none
  rw [map_inSequence] at hat hlength
  obtain ⟨t', s, hrun, hsame, -⟩ := gives_script hreads hlength span _ hat
  refine ⟨t', ?_, ?_⟩
  · show (script _ _ _).map (·.1) = _
    rw [hrun]
    rfl
  · rw [Tree.fenced_ofList .script rfl nofun]
    exact hsame

/-- An `else` behind an inner `if`, an `in` in the head of a `for` and a statement that starts
with an object literal. -/
def Tree.fencedSample : List Tree :=
  let span : Span := ⟨0, 0, 0⟩
  let name (text : String) : Tree := identifier text span
  let value (t : Tree) : Tree := ofList .semicolon span [t.withRole .expression]
  let inner := ofList .ifElse span
    [(name "b").withRole .condition, (value (name "c")).withRole .thenPart]
  let isIn := ofList .isIn span [name "k", name "y"]
  let setup := node { kind := .assign, span } [name "x", isIn]
  [ofList .ifElse span
      [(name "a").withRole .condition, inner.withRole .thenPart,
        (value (name "d")).withRole .elsePart],
    ofList .forLoop span (part .setup (some setup) ++ part .condition none ++
      part .update none ++ [(leaf .semicolon span).withRole .body]),
    value (ofList .objectInit span (List.map Field.tree []))]

theorem parseScript_render_fencedSample :
    (Tree.ofList .script ⟨0, 0, 0⟩ Tree.fencedSample).render {} =
        "if(a)\x7bif(b)c\x7delse d;for(x=(k in y);;);(\x7b\x7d);" ∧
      ∃ t', parseScript ((Tree.ofList .script ⟨0, 0, 0⟩ Tree.fencedSample).render {}) 1 = .ok t' ∧
        t'.plain = (Tree.ofList .script ⟨0, 0, 0⟩ Tree.fencedSample).fenced.plain := by
  have hname : ∀ name ∈ ["a", "b", "c", "d", "k", "x", "y"], isName name ∧ isReserved name = false := by
    decide
  have hidentifier : ∀ name ∈ ["a", "b", "c", "d", "k", "x", "y"],
      (Tree.identifier name ⟨0, 0, 0⟩).IsExpression {} :=
    fun name hmem => .identifier (hname name hmem).1 (hname name hmem).2
  refine ⟨by decide +kernel, parseScript_render ?_ ⟨0, 0, 0⟩ 1⟩
  have hvalue : ∀ name ∈ ["a", "b", "c", "d", "k", "x", "y"], (Tree.ofList .semicolon ⟨0, 0, 0⟩
      [(Tree.identifier name ⟨0, 0, 0⟩).withRole .expression]).IsStatement {} [] :=
    fun name hmem => .expression (hidentifier name hmem)
  have hsetup : (Tree.node { kind := .assign, span := ⟨0, 0, 0⟩ } [Tree.identifier "x" ⟨0, 0, 0⟩,
      Tree.ofList .isIn ⟨0, 0, 0⟩ [.identifier "k" ⟨0, 0, 0⟩, .identifier "y" ⟨0, 0, 0⟩]]).IsExpression {} :=
    .assign nofun rfl (hidentifier "x" (by simp))
      (.binary rfl (hidentifier "k" (by simp)) (hidentifier "y" (by simp)))
  intro t ht
  simp only [Tree.fencedSample, List.mem_cons, List.not_mem_nil, or_false] at ht
  rcases ht with rfl | rfl | rfl
  · exact .ifElse (hidentifier "a" (by simp))
      (.ifThen (hidentifier "b" (by simp)) (hvalue "c" (by simp))) (hvalue "d" (by simp))
  · exact .forLoop (by rintro _ ⟨⟩; exact hsetup) nofun nofun .empty
  · exact .expression (.objectInit nofun nofun)

end ScriptMin
