import ScriptMin.Proofs.Grammar.Literals
import ScriptMin.Proofs.Tree.Statements

/-!
How structured statements are read. The semicolon at the end of a statement may be missing
before a closing brace, and an `else` joins the nearest `if` before it, so a statement is read
as it was meant only before certain atoms. Every form hands these conditions on to the
statements inside it.
-/

namespace ScriptMin

open ScriptMin.Grammar ScriptMin.Stream

def Atom.word (k : Keyword) : Atom := ⟨.keyword k, none⟩

/-- Statements one after the other, each with or without the semicolon at its end. Only that of
the last one may be left out. -/
def inSequence {α : Type} (kept : Bool) : List (Bool → List α) → List α
  | [] => []
  | part :: rest => part (!rest.isEmpty || kept) ++ inSequence kept rest

namespace Stream

/-- Without comments in the text there are none to take. -/
theorem takeComments_run {line : Nat} {atoms : List Atom} {s : Stream} (h : At line atoms s) :
    ∃ s', takeComments s = .ok (#[], s') ∧ At line atoms s' := by
  obtain ⟨text, hs, hreadable⟩ := h
  refine ⟨{ s with comments := #[], unsettled := 0 }, ?_, text, ?_, hreadable⟩
  · show Except.ok (s.comments, _) = _
    rw [hs.no_comments]
  · exact ⟨hs.onLine, hs.cursor, rfl, hs.no_breaks, hs.ahead⟩

end Stream

namespace Tree

theorem attach_nil (t : Tree) : t.attach [] = t := by
  cases t with
  | node head children => simp [attach, mapHead]

theorem Same.withRole {t t' : Tree} (h : t.Same t') (role : Role) :
    (t.withRole role).Same (t'.withRole role) := by
  have hrole : ∀ t : Tree, (t.withRole role).plain = t.plain.withRole role := by
    rintro ⟨head, children⟩
    simp [Tree.withRole, mapHead]
  rw [Same, hrole, hrole, h]

theorem SameAll.part {t t' : Option Tree} (role : Role) (h : Option.Rel Tree.Same t t') :
    SameAll (part role t) (part role t') := by
  cases h with
  | some h => exact .single (h.withRole role)
  | none => exact .nil

end Tree

namespace Grammar

variable {line : Nat} {e : Surroundings} {atoms rest : List Atom}

namespace Gives

variable {k : Keyword} {operand : Bool}

theorem acceptWord (hadmits : (Atom.word k).admits operand) :
    Gives e (At line (.word k :: atoms)) (Stream.acceptWord operand k : Production Bool) (· = true)
      (At line atoms) := by
  intro s hs
  obtain ⟨s', hrun, hs'⟩ := nextIf_run hs hadmits true
    fun t ht => show t.isKeyword k = true by simp [ht.isKeyword, Atom.word]
  exact ⟨true, s', hrun, rfl, hs'⟩

theorem not_acceptWord (h : (Atom.first atoms).kind ≠ .keyword k)
    (hadmits : (Atom.first atoms).admits operand) :
    Gives e (At line atoms) (Stream.acceptWord operand k : Production Bool) (· = false)
      (At line atoms) := by
  intro s hs
  obtain ⟨s', hrun, hs'⟩ := nextIf_run hs hadmits false
    fun t ht => show t.isKeyword k = false by simp [ht.isKeyword, h]
  exact ⟨false, s', hrun, rfl, hs'⟩

theorem expectWord (hadmits : (Atom.word k).admits false) :
    Gives e (At line (.word k :: atoms)) (expectWord k) (fun _ => True) (At line atoms) := by
  refine bind (take hadmits) fun token htoken => ?_
  rw [if_pos (by simp [htoken.isKeyword, Atom.word])]
  exact pure trivial

theorem get {P : Stream → Prop} : Gives e P (get : Production Stream) (fun _ => True) P :=
  fun s hs => ⟨s, s, rfl, trivial, hs⟩

theorem isDone (hadmits : (Atom.first atoms).admits false) :
    Gives e (At line atoms) (Stream.isDone : Production Bool)
      (· = ((Atom.first atoms).kind == .endOfInput)) (At line atoms) := by
  intro s hs
  obtain ⟨token, s', hrun, htoken, -, hs'⟩ := peek_run hs hadmits
  refine ⟨token.kind == .endOfInput, s', ?_, by rw [htoken.kind], hs'⟩
  show (Stream.peek false s >>= fun x => _) = _
  rw [hrun]
  rfl

theorem takeComments :
    Gives e (At line atoms) (Stream.takeComments : Production (Array Comment)) (· = #[])
      (At line atoms) := by
  intro s hs
  obtain ⟨s', hrun, hs'⟩ := takeComments_run hs
  exact ⟨#[], s', hrun, rfl, hs'⟩

end Gives

/-! ### The end of a statement -/

def semicolonAtoms (kept : Bool) : List Atom := if kept then [.sign .semicolon] else []

/-- What may follow a statement: a closing brace if its semicolon is left out, and no `else` if
it ends with an open `if`. -/
structure EndsStatement (kept isOpen : Bool) (a : Atom) : Prop where
  admits : ∀ operand, a.admits operand
  no_else : isOpen → a.kind ≠ .keyword .kwElse
  brace : kept = false → a = .sign .closeBrace

theorem EndsStatement.closeBrace (kept isOpen : Bool) :
    EndsStatement kept isOpen (.sign .closeBrace) where
  admits operand := by cases operand <;> rfl
  no_else _ := nofun
  brace _ := rfl

theorem gives_endStatement {kept isOpen : Bool}
    (h : EndsStatement kept isOpen (Atom.first rest)) :
    Gives e (At line (semicolonAtoms kept ++ rest)) endStatement (fun _ => True) (At line rest) := by
  cases kept with
  | true =>
      refine .bind (.peekOnLine rfl) fun token htoken => ?_
      rw [htoken.kind]
      refine .bind (.take rfl) fun _ _ => ?_
      exact .pure trivial
  | false =>
      refine .bind (.peekOnLine (h.admits false)) fun token htoken => ?_
      rw [htoken.kind]
      obtain ⟨tail, rfl⟩ : ∃ tail, rest = .sign .closeBrace :: tail := by
        cases rest with
        | nil => cases h.brace rfl
        | cons a tail => exact ⟨tail, by rw [← h.brace rfl]; rfl⟩
      exact .pure trivial

theorem gives_acceptSemicolon {kept isOpen : Bool}
    (h : EndsStatement kept isOpen (Atom.first rest)) :
    Gives e (At line (semicolonAtoms kept ++ rest)) (accept .semicolon) (fun _ => True)
      (At line rest) := by
  cases kept with
  | true => exact Gives.mono (.accept rfl rfl) fun _ _ => trivial
  | false =>
      have hnone : (Atom.first rest).kind ≠ .punctuator .semicolon := by
        rw [h.brace rfl]
        exact nofun
      exact Gives.mono (.not_accept hnone (h.admits false)) fun _ _ => trivial

/-- What stands behind an expression that ends a statement. -/
theorem EndsStatement.first_semicolon {kept isOpen : Bool}
    (h : EndsStatement kept isOpen (Atom.first rest)) :
    Atom.first (semicolonAtoms kept ++ rest) =
      .sign (if kept then .semicolon else .closeBrace) := by
  cases kept with
  | true => rfl
  | false => exact h.brace rfl

theorem EndsStatement.follow_semicolon {kept isOpen : Bool}
    (h : EndsStatement kept isOpen (Atom.first rest)) :
    (Atom.first (semicolonAtoms kept ++ rest)).follow = 0 := by
  rw [h.first_semicolon]
  cases kept <;> rfl

/-! ### Statements -/

structure StartsStatement (a : Atom) : Prop where
  admits : ∀ operand, a.admits operand
  no_brace : a.kind ≠ .punctuator .closeBrace
  no_end : a.kind ≠ .endOfInput
  no_else : a.kind ≠ .keyword .kwElse

theorem StartsStatement.ends {a : Atom} (h : StartsStatement a) (isOpen : Bool) :
    EndsStatement true isOpen a where
  admits := h.admits
  no_else _ := h.no_else
  brace := nofun

theorem StartsStatement.of_opens {a : Atom} (h : a.opens) : StartsStatement a where
  admits := Atom.admits_of_opens h
  no_brace := Atom.kind_ne_of_opens h rfl
  no_end := Atom.kind_ne_of_opens h rfl
  no_else := Atom.kind_ne_of_opens h rfl

theorem StartsStatement.of_word {k : Keyword} (h : k ≠ .kwElse) : StartsStatement (.word k) where
  admits operand := by cases operand <;> rfl
  no_brace := nofun
  no_end := nofun
  no_else heq := h (TokenKind.keyword.inj heq)

/-- The labels around a statement are among the given ones. -/
def Surroundings.Within (e : Surroundings) (labels : List String) : Prop :=
  ∀ name, .label name ∈ e.frames → name ∈ labels

/-- The given atoms, with or without the semicolon at their end, are read as a statement. -/
structure ReadsStatement (line : Nat) (labels : List String) (isOpen : Bool) (t : Tree)
    (atoms : Bool → List Atom) : Prop where
  starts : ∀ kept, StartsStatement (Atom.first (atoms kept))
  reads : ∀ (kept : Bool) (budget : Nat) (e : Surroundings) (rest : List Atom),
    e.noIn = false → e.Within labels → 3 * (atoms kept).length + 4 ≤ budget →
    (atoms kept).length < e.turns → EndsStatement kept isOpen (Atom.first rest) →
    Gives e (At line (atoms kept ++ rest)) (derive budget .statement) t.Same (At line rest)

variable {labels : List String} {isOpen : Bool} {t condition : Tree} {φ : Tree → Prop}
  {conditionAtoms : List Atom} {stmtAtoms : Bool → List Atom}

theorem ReadsStatement.ne_nil (h : ReadsStatement line labels isOpen t stmtAtoms) (kept : Bool) :
    stmtAtoms kept ≠ [] := by
  intro hnil
  have hend := (h.starts kept).no_end
  rw [hnil] at hend
  exact hend rfl

theorem ReadsStatement.first_append (h : ReadsStatement line labels isOpen t stmtAtoms)
    (kept : Bool) (rest : List Atom) :
    Atom.first (stmtAtoms kept ++ rest) = Atom.first (stmtAtoms kept) :=
  Atom.first_append (h.ne_nil kept) rest

/-- A statement is read as what its form reads, as no comments stand before it. -/
theorem gives_statement {budget : Nat} {R : Stream → Prop}
    (hstarts : (Atom.first atoms).admits true)
    (h : Gives e (At line atoms) (bareStatement (derive budget)) t.Same R) :
    Gives e (At line atoms) (derive (budget + 1) .statement) t.Same R := by
  show Gives e _ (statement (derive budget)) _ _
  refine .bind (.peek hstarts) fun _ _ => ?_
  refine .bind .takeComments fun comments hcomments => ?_
  refine .bind h fun t' ht' => ?_
  subst hcomments
  refine .pure ?_
  rw [Array.toList_empty, Tree.attach_nil]
  exact ht'

/-- The parts of a form that are read before the end of its statement. -/
theorem ReadsStatement.of_form (hstarts : ∀ kept, StartsStatement (Atom.first (stmtAtoms kept)))
    (h : ∀ (kept : Bool) (budget : Nat) (e : Surroundings) (rest : List Atom),
      e.noIn = false → e.Within labels → 3 * (stmtAtoms kept).length + 3 ≤ budget →
      (stmtAtoms kept).length < e.turns → EndsStatement kept isOpen (Atom.first rest) →
      Gives e (At line (stmtAtoms kept ++ rest)) (bareStatement (derive budget)) t.Same
        (At line rest)) :
    ReadsStatement line labels isOpen t stmtAtoms where
  starts := hstarts
  reads := by
    intro kept budget e rest he hlabels hbudget hturns hends
    obtain ⟨budget, rfl⟩ := Nat.exists_eq_add_one.mpr (show 0 < budget by omega)
    refine gives_statement ?_ (h kept budget e rest he hlabels (by omega) hturns hends)
    have hne : stmtAtoms kept ≠ [] := fun hnil => (hstarts kept).no_end (by rw [hnil]; rfl)
    rw [Atom.first_append hne]
    exact (hstarts kept).admits true

/-- The statement inside a construct. -/
theorem ReadsStatement.inside (h : ReadsStatement line labels isOpen t stmtAtoms) {kept : Bool}
    {budget : Nat} (he : e.noIn = false) {frame : Frame}
    (hlabels : ({ e with frames := frame :: e.frames } : Surroundings).Within labels)
    (hbudget : 3 * (stmtAtoms kept).length + 4 ≤ budget) (hturns : (stmtAtoms kept).length < e.turns)
    (hends : EndsStatement kept isOpen (Atom.first rest)) :
    Gives e (At line (stmtAtoms kept ++ rest)) (statementIn (derive budget) frame) t.Same
      (At line rest) :=
  h.reads kept budget { e with frames := frame :: e.frames } rest he hlabels hbudget hturns hends

theorem Surroundings.Within.inside (h : e.Within labels) {frame : Frame} (hframe : !frame.isLabel) :
    ({ e with frames := frame :: e.frames } : Surroundings).Within labels := by
  intro name hname
  rcases List.mem_cons.mp hname with rfl | hname
  · cases hframe
  · exact h name hname

theorem Surroundings.Within.label (h : e.Within labels) (name : String) :
    ({ e with frames := .label name :: e.frames } : Surroundings).Within (name :: labels) := by
  intro other hother
  rcases List.mem_cons.mp hother with heq | hother
  · cases heq
    exact List.mem_cons_self
  · exact List.mem_cons_of_mem name (h other hother)

/-! ### Expressions in statements -/

/-- An expression where `in` is an operator. -/
theorem Derives.expression {shy : Bool} (h : Derives line shy 1 φ atoms) {budget : Nat}
    (he : e.noIn → shy) (hbudget : 3 * atoms.length + 3 ≤ budget) (hturns : atoms.length < e.turns)
    (hfollow : (Atom.first rest).follow = 0) :
    Gives e (At line (atoms ++ rest)) (expression (derive budget)) φ (At line rest) :=
  h.reads budget e rest he hbudget hturns (by omega)

theorem gives_parenExpression (h : Derives line false 1 condition.Same atoms) {budget : Nat}
    (hbudget : 3 * atoms.length + 3 ≤ budget) (hturns : atoms.length < e.turns) :
    Gives e (At line (.sign .openParen :: (atoms ++ .sign .closeParen :: rest)))
      (parenExpression (derive budget)) condition.Same (At line rest) := by
  refine .bind (.expect rfl rfl) fun _ _ => ?_
  refine .bind (.allowIn (h.expression nofun hbudget hturns rfl)) fun inner hinner => ?_
  refine .bind (.expect rfl rfl) fun _ _ => ?_
  exact .pure hinner

/-! ### Lists of statements -/

def ReadsStatements (line : Nat) (labels : List String) :
    List Tree → List (Bool → List Atom) → Prop :=
  List.Forall₂ fun t atoms => ∃ isOpen, ReadsStatement line labels isOpen t atoms

variable {ts : List Tree} {parts : List (Bool → List Atom)}

/-- What follows a statement of a list is the next one, or what ends the list. -/
theorem ReadsStatements.ends (h : ReadsStatements line labels ts parts) {kept isOpen : Bool}
    (hrest : EndsStatement kept isOpen (Atom.first rest)) :
    EndsStatement (!parts.isEmpty || kept) isOpen
      (Atom.first (inSequence kept parts ++ rest)) := by
  cases h with
  | nil => exact hrest
  | cons ht =>
      obtain ⟨_, ht⟩ := ht
      rw [inSequence, List.append_assoc, ht.first_append]
      exact (ht.starts _).ends isOpen

/-- A loop whose turns read a statement where one starts, and whose last turn is made at the end
of the list, reads all statements of a list. -/
theorem gives_sequence {turn : List Tree → Production (Turn (List Tree) (List Tree))}
    (h : ReadsStatements line labels ts parts) {kept : Bool} {budget : Nat} {R : Stream → Prop}
    (he : e.noIn = false) (hlabels : e.Within labels)
    (hbudget : 3 * (inSequence kept parts).length + 4 ≤ budget)
    (hturns : (inSequence kept parts).length < e.turns)
    (hrest : ∀ isOpen, EndsStatement kept isOpen (Atom.first rest))
    (hturn : ∀ trees atoms φ R, StartsStatement (Atom.first atoms) →
      Gives e (At line atoms) (derive budget .statement) φ R →
      Gives e (At line atoms) (turn trees) (fun r => ∃ t', r = .again (t' :: trees) ∧ φ t') R)
    (hdone : ∀ trees, Gives e (At line rest) (turn trees) (· = .done trees.reverse) R) :
    Gives e (At line (inSequence kept parts ++ rest)) (repeatTurns [] turn) (Tree.SameAll ts)
      R := by
  suffices hloop : ∀ turns trees, (inSequence kept parts).length < turns →
      Gives e (At line (inSequence kept parts ++ rest)) (repeatFrom turn turns trees)
        (fun result => ∃ ts', Tree.SameAll ts ts' ∧ result = trees.reverse ++ ts') R by
    refine .repeatTurns ((hloop e.turns [] hturns).mono ?_)
    rintro _ ⟨ts', hts', rfl⟩
    exact hts'
  intro turns trees hloop
  obtain ⟨turns, rfl⟩ := Nat.exists_eq_add_one.mpr (show 0 < turns by omega)
  induction h generalizing trees turns with
  | nil =>
      refine .done ((hdone trees).mono ?_)
      rintro _ rfl
      exact ⟨_, rfl, [], .nil, by rw [List.append_nil]⟩
  | @cons t atoms ts parts ht hts ih =>
      obtain ⟨isOpen, ht⟩ := ht
      have hpos := List.length_pos_of_ne_nil (ht.ne_nil (!parts.isEmpty || kept))
      rw [inSequence, List.length_append] at hbudget hturns hloop
      rw [inSequence, List.append_assoc]
      obtain ⟨turns, rfl⟩ := Nat.exists_eq_add_one.mpr (show 0 < turns by omega)
      have hreads := ht.reads _ budget e _ he hlabels (by omega) (by omega)
        (ReadsStatements.ends hts (hrest isOpen))
      have hstarts := ht.starts (!parts.isEmpty || kept)
      rw [← ht.first_append _ (inSequence kept parts ++ rest)] at hstarts
      refine .again (θ := fun state => ∃ t', t.Same t' ∧ state = t' :: trees)
        ((hturn trees _ _ _ hstarts hreads).mono ?_) ?_
      · rintro _ ⟨t', rfl, ht'⟩
        exact ⟨_, rfl, t', ht', rfl⟩
      · rintro _ ⟨t', ht', rfl⟩
        refine (ih (by omega) (by omega) (t' :: trees) turns (by omega)).mono ?_
        rintro _ ⟨ts', hts', rfl⟩
        exact ⟨t' :: ts', .cons ht' hts', by simp⟩

/-- The statements of a block, up to its closing brace. -/
theorem gives_statementsToBrace (h : ReadsStatements line labels ts parts) {kept : Bool}
    {budget : Nat} (he : e.noIn = false) (hlabels : e.Within labels)
    (hbudget : 3 * (inSequence kept parts).length + 4 ≤ budget)
    (hturns : (inSequence kept parts).length < e.turns) :
    Gives e (At line (inSequence kept parts ++ .sign .closeBrace :: rest))
      (statementsToBrace (derive budget)) (Tree.SameAll ts) (At line rest) := by
  refine gives_sequence h he hlabels hbudget hturns (fun isOpen => .closeBrace kept isOpen) ?_ ?_
  · intro trees atoms φ R hstarts hreads
    refine .bind (.peek (hstarts.admits true)) fun token htoken => ?_
    rw [if_neg (by simpa [htoken.isPunctuator] using hstarts.no_brace),
      if_neg (by simpa [htoken.kind] using hstarts.no_end)]
    exact .bind hreads fun t' ht' => .pure ⟨t', rfl, ht'⟩
  · intro trees
    refine .bind (.peek rfl) fun token htoken => ?_
    rw [if_pos (by rw [htoken.isPunctuator]; rfl)]
    exact .bind (.take rfl) fun _ _ => .pure rfl

/-- The statements of a script, up to the end of the text. -/
theorem gives_script {length : Nat} (h : ReadsStatements line [] ts parts)
    (hlength : (inSequence true parts).length ≤ length) (span : Span) :
    Gives { turns := length + 2 } (At line (inSequence true parts))
      (script (derive (8 * (length + 2)))) (Tree.ofList .script span ts).Same (At line []) := by
  have hend : ∀ isOpen, EndsStatement true isOpen (Atom.first []) :=
    fun _ => ⟨fun operand => by cases operand <;> rfl, nofun, nofun⟩
  refine .bind .get fun _ _ => ?_
  refine .bind .hoisted fun names _ => ?_
  refine .bind (φ := Tree.SameAll ts) (R := At line []) (.withReader ?_) fun ts' hts' => ?_
  · rw [← List.append_nil (inSequence true parts)]
    refine gives_sequence h rfl nofun (show _ ≤ 8 * (length + 2) by omega)
      (show _ < length + 2 by omega) hend ?_ ?_
    · intro trees atoms φ R hstarts hreads
      refine .bind (.isDone (hstarts.admits false)) fun found hfound => ?_
      rw [if_neg (by simpa [hfound] using hstarts.no_end)]
      exact .bind hreads fun t' ht' => .pure ⟨t', rfl, ht'⟩
    · intro trees
      refine .bind (.isDone rfl) fun found hfound => ?_
      rw [if_pos (by rw [hfound]; rfl)]
      exact .pure rfl
  · refine .bind (.spanFrom _) fun span' _ => ?_
    refine .bind .takeComments fun comments hcomments => ?_
    subst hcomments
    refine .pure ?_
    rw [Array.toList_empty, Tree.attach_nil]
    exact Tree.same_ofList hts'

/-! ### One lemma for each form -/

variable {span : Span} {thenPart elsePart body : Tree}
    {thenAtoms elseAtoms bodyAtoms : Bool → List Atom}

theorem readsStatement_block (h : ReadsStatements line labels ts parts) (kept : Bool)
    (isOpen : Bool) (span : Span) :
    ReadsStatement line labels isOpen (.ofList .block span ts)
      fun _ => .sign .openBrace :: (inSequence kept parts ++ [.sign .closeBrace]) := by
  refine .of_form (fun _ => .of_opens rfl) fun _ budget e rest he hlabels hbudget hturns _ => ?_
  simp only [List.length_cons, List.length_append, List.length_nil] at hbudget hturns
  rw [List.cons_append, List.append_assoc]
  refine .bind (.take rfl) fun token htoken => ?_
  rw [htoken.kind]
  refine .withReader (.bind (φ := Tree.SameAll ts) (R := At line rest) ?_ fun ts' hts' => ?_)
  · exact gives_statementsToBrace h he (hlabels.inside rfl) (by omega) (show _ < e.turns by omega)
  · refine .bind (.spanFrom _) fun span' _ => ?_
    exact .pure (Tree.same_ofList hts')

theorem readsStatement_empty (isOpen : Bool) (span : Span) :
    ReadsStatement line labels isOpen (.leaf .semicolon span) fun _ => [.sign .semicolon] := by
  have hstarts : StartsStatement (.sign .semicolon) :=
    ⟨fun operand => by cases operand <;> rfl, nofun, nofun, nofun⟩
  refine .of_form (fun _ => hstarts) fun _ budget e rest _ _ _ _ _ => ?_
  refine .bind (.take rfl) fun token htoken => ?_
  rw [htoken.kind]
  exact .pure (Tree.same_node .nil)

theorem readsStatement_debuggerStmt (isOpen : Bool) (span : Span) :
    ReadsStatement line labels isOpen (.leaf .debuggerStmt span)
      fun kept => .word .kwDebugger :: semicolonAtoms kept := by
  refine .of_form (fun _ => .of_word nofun) fun kept budget e rest _ _ _ _ hends => ?_
  refine .bind (.take rfl) fun token htoken => ?_
  rw [htoken.kind]
  refine .bind (gives_endStatement hends) fun _ _ => ?_
  refine .bind (.spanFrom _) fun span' _ => ?_
  exact .pure (Tree.same_node .nil)

theorem readsStatement_throwStmt {exception : Tree}
    (h : Derives line false 1 exception.Same atoms) (isOpen : Bool) (span : Span) :
    ReadsStatement line labels isOpen (.ofList .throwStmt span [exception.withRole .exception])
      fun kept => .word .kwThrow :: (atoms ++ semicolonAtoms kept) := by
  refine .of_form (fun _ => .of_word nofun) fun kept budget e rest he _ hbudget hturns hends => ?_
  simp only [List.length_cons, List.length_append] at hbudget hturns
  rw [List.cons_append, List.append_assoc]
  refine .bind (.take rfl) fun token htoken => ?_
  rw [htoken.kind]
  refine .bind (h.expression (by simp [he]) (by omega) (by omega) hends.follow_semicolon)
    fun exception' hexception => ?_
  refine .bind (gives_endStatement hends) fun _ _ => ?_
  refine .bind (.spanFrom _) fun span' _ => ?_
  exact .pure (Tree.same_ofList (.single (hexception.withRole _)))

theorem readsStatement_whileLoop (hcondition : Derives line false 1 condition.Same conditionAtoms)
    (hbody : ReadsStatement line labels isOpen body bodyAtoms) (span : Span) :
    ReadsStatement line labels isOpen
      (.ofList .whileLoop span [condition.withRole .condition, body.withRole .body])
      fun kept => .word .kwWhile :: .sign .openParen ::
        (conditionAtoms ++ .sign .closeParen :: bodyAtoms kept) := by
  refine .of_form (fun _ => .of_word nofun) fun kept budget e rest he hlabels hbudget hturns hends => ?_
  simp only [List.length_cons, List.length_append] at hbudget hturns
  simp only [List.cons_append, List.append_assoc]
  refine .bind (.take rfl) fun token htoken => ?_
  rw [htoken.kind]
  refine .bind (gives_parenExpression hcondition (by omega) (by omega)) fun condition' hcondition' => ?_
  refine .bind (hbody.inside he (hlabels.inside rfl) (by omega) (by omega) hends) fun body' hbody' => ?_
  refine .bind (.spanFrom _) fun span' _ => ?_
  exact .pure (Tree.same_ofList (.cons (hcondition'.withRole _) (.single (hbody'.withRole _))))

theorem readsStatement_withStmt (hobject : Derives line false 1 condition.Same conditionAtoms)
    (hbody : ReadsStatement line labels isOpen body bodyAtoms) (span : Span) :
    ReadsStatement line labels isOpen
      (.ofList .withStmt span [condition.withRole .object, body.withRole .body])
      fun kept => .word .kwWith :: .sign .openParen ::
        (conditionAtoms ++ .sign .closeParen :: bodyAtoms kept) := by
  refine .of_form (fun _ => .of_word nofun) fun kept budget e rest he hlabels hbudget hturns hends => ?_
  simp only [List.length_cons, List.length_append] at hbudget hturns
  simp only [List.cons_append, List.append_assoc]
  refine .bind (.take rfl) fun token htoken => ?_
  rw [htoken.kind]
  refine .bind (gives_parenExpression hobject (by omega) (by omega)) fun object' hobject' => ?_
  refine .bind (hbody.inside he (hlabels.inside rfl) (by omega) (by omega) hends) fun body' hbody' => ?_
  refine .bind (.spanFrom _) fun span' _ => ?_
  exact .pure (Tree.same_ofList (.cons (hobject'.withRole _) (.single (hbody'.withRole _))))

/-- The semicolon behind a `do` may be missing before any token. -/
theorem readsStatement_doLoop (hbody : ReadsStatement line labels isOpen body bodyAtoms)
    (hcondition : Derives line false 1 condition.Same conditionAtoms) (span : Span) :
    ReadsStatement line labels false
      (.ofList .doLoop span [body.withRole .body, condition.withRole .condition])
      fun kept => .word .kwDo :: (bodyAtoms true ++ .word .kwWhile :: .sign .openParen ::
        (conditionAtoms ++ .sign .closeParen :: semicolonAtoms kept)) := by
  refine .of_form (fun _ => .of_word nofun) fun kept budget e rest he hlabels hbudget hturns hends => ?_
  simp only [List.length_cons, List.length_append] at hbudget hturns
  simp only [List.cons_append, List.append_assoc]
  have hwhile : EndsStatement true isOpen (.word .kwWhile) :=
    (StartsStatement.of_word (k := .kwWhile) nofun).ends isOpen
  refine .bind (.take rfl) fun token htoken => ?_
  rw [htoken.kind]
  refine .bind (hbody.inside he (hlabels.inside rfl) (by omega) (by omega) hwhile)
    fun body' hbody' => ?_
  refine .bind (.expectWord rfl) fun _ _ => ?_
  refine .bind (gives_parenExpression hcondition (by omega) (by omega)) fun condition' hcondition' => ?_
  refine .bind (gives_acceptSemicolon hends) fun _ _ => ?_
  refine .bind (.spanFrom _) fun span' _ => ?_
  exact .pure (Tree.same_ofList (.cons (hbody'.withRole _) (.single (hcondition'.withRole _))))

theorem readsStatement_label {name : String} (hname : name ∉ labels)
    (hbody : ReadsStatement line (name :: labels) isOpen body bodyAtoms) (span : Span) :
    ReadsStatement line labels isOpen
      (.node { kind := .label, span, payload := .text name } [body.withRole .statement])
      fun kept => ⟨.identifier name, none⟩ :: .sign .colon :: bodyAtoms kept := by
  refine .of_form (fun _ => .of_opens rfl) fun kept budget e rest he hlabels hbudget hturns hends => ?_
  simp only [List.length_cons] at hbudget hturns
  refine .bind (.take rfl) fun token htoken => ?_
  rw [htoken.kind]
  refine .bind (.peek rfl) fun following hfollowing => ?_
  rw [if_pos (by rw [hfollowing.isPunctuator]; rfl)]
  refine .bind (.take rfl) fun _ _ => ?_
  refine .bind .read fun surroundings hsurroundings => ?_
  subst hsurroundings
  rw [if_neg (by simpa using fun hmem => hname (hlabels name hmem))]
  refine .bind (hbody.inside he (hlabels.label name) (by omega) (by omega) hends) fun body' hbody' => ?_
  refine .bind (.spanFrom _) fun span' _ => ?_
  exact .pure (Tree.same_node (.single (hbody'.withRole _)))

/-- Without an `else` behind it, an `if` is read to the end of its first part. -/
theorem readsStatement_ifThen (hcondition : Derives line false 1 condition.Same conditionAtoms)
    (hthen : ReadsStatement line labels isOpen thenPart thenAtoms) (span : Span) :
    ReadsStatement line labels true
      (.ofList .ifElse span [condition.withRole .condition, thenPart.withRole .thenPart])
      fun kept => .word .kwIf :: .sign .openParen ::
        (conditionAtoms ++ .sign .closeParen :: thenAtoms kept) := by
  refine .of_form (fun _ => .of_word nofun) fun kept budget e rest he hlabels hbudget hturns hends => ?_
  simp only [List.length_cons, List.length_append] at hbudget hturns
  simp only [List.cons_append, List.append_assoc]
  have hthenEnds : EndsStatement kept isOpen (Atom.first rest) :=
    ⟨hends.admits, fun _ => hends.no_else rfl, hends.brace⟩
  refine .bind (.take rfl) fun token htoken => ?_
  rw [htoken.kind]
  refine .bind (gives_parenExpression hcondition (by omega) (by omega)) fun condition' hcondition' => ?_
  refine .bind (hthen.inside he (hlabels.inside rfl) (by omega) (by omega) hthenEnds)
    fun thenPart' hthen' => ?_
  refine .bind (.not_acceptWord (hends.no_else rfl) (hends.admits true)) fun found hfound => ?_
  subst hfound
  refine .bind (.pure (φ := (· = none)) rfl) fun elsePart helse => ?_
  subst helse
  refine .bind (.spanFrom _) fun span' _ => ?_
  exact .pure (Tree.same_ofList (.cons (hcondition'.withRole _) (.single (hthen'.withRole _))))

/-- An `else` joins the `if` before it if the first part of that `if` leaves none open. -/
theorem readsStatement_ifElse (hcondition : Derives line false 1 condition.Same conditionAtoms)
    (hthen : ReadsStatement line labels false thenPart thenAtoms)
    (helse : ReadsStatement line labels isOpen elsePart elseAtoms) (span : Span) :
    ReadsStatement line labels isOpen
      (.ofList .ifElse span [condition.withRole .condition, thenPart.withRole .thenPart,
        elsePart.withRole .elsePart])
      fun kept => .word .kwIf :: .sign .openParen ::
        (conditionAtoms ++ .sign .closeParen :: (thenAtoms true ++ .word .kwElse :: elseAtoms kept)) := by
  refine .of_form (fun _ => .of_word nofun) fun kept budget e rest he hlabels hbudget hturns hends => ?_
  simp only [List.length_cons, List.length_append] at hbudget hturns
  simp only [List.cons_append, List.append_assoc]
  have hthenEnds : EndsStatement true false (.word .kwElse) :=
    ⟨fun operand => by cases operand <;> rfl, nofun, nofun⟩
  refine .bind (.take rfl) fun token htoken => ?_
  rw [htoken.kind]
  refine .bind (gives_parenExpression hcondition (by omega) (by omega)) fun condition' hcondition' => ?_
  refine .bind (hthen.inside he (hlabels.inside rfl) (by omega) (by omega) hthenEnds)
    fun thenPart' hthen' => ?_
  refine .bind (.acceptWord rfl) fun found hfound => ?_
  subst hfound
  refine .bind (φ := fun r => ∃ t', r = some t' ∧ elsePart.Same t') (R := At line rest) ?_ ?_
  · have hinside : Gives e _ (statementIn (derive budget) .other) _ _ :=
      helse.inside he (hlabels.inside rfl) (by omega) (by omega) hends
    exact .bind hinside fun t' ht' => .pure ⟨t', rfl, ht'⟩
  · rintro _ ⟨elsePart', rfl, helse'⟩
    refine .bind (.spanFrom _) fun span' _ => ?_
    exact .pure (Tree.same_ofList (.cons (hcondition'.withRole _)
      (.cons (hthen'.withRole _) (.single (helse'.withRole _)))))

/-! ### Expression statements -/

/-- Atoms that are not taken for a block or a labelled statement. -/
structure StartsExpression (atoms : List Atom) : Prop where
  no_brace : (Atom.first atoms).kind ≠ .punctuator .openBrace
  no_label : ∀ name, (Atom.first atoms).kind = .identifier name →
    (Atom.first atoms.tail).kind ≠ .punctuator .colon
  admits : (Atom.first atoms.tail).admits false

/-- What follows the expression is no colon either. -/
theorem StartsExpression.append {kept : Bool} (h : StartsExpression atoms) (hne : atoms ≠ [])
    (hends : EndsStatement kept isOpen (Atom.first rest)) :
    StartsExpression (atoms ++ (semicolonAtoms kept ++ rest)) := by
  obtain ⟨a, tail, rfl⟩ := List.exists_cons_of_ne_nil hne
  cases tail with
  | cons a' tail => exact ⟨h.no_brace, h.no_label, h.admits⟩
  | nil =>
      have hfirst : Atom.first ([a] ++ (semicolonAtoms kept ++ rest)).tail =
          .sign (if kept then .semicolon else .closeBrace) := hends.first_semicolon
      refine ⟨h.no_brace, fun _ _ => ?_, ?_⟩
      · rw [hfirst]
        cases kept <;> exact nofun
      · rw [hfirst]
        cases kept <;> rfl

/-- The dispatch on the first token leads to an expression. -/
theorem gives_bareStatement_of_startsExpression {budget : Nat} {R : Stream → Prop}
    (h : StartsExpression atoms) (hopens : (Atom.first atoms).opens)
    (hgives : ∀ start, Gives e (At line atoms) (expressionStatement (derive budget) start) t.Same R) :
    Gives e (At line atoms) (bareStatement (derive budget)) t.Same R := by
  have hunread : ∀ start, Gives e (Behind line atoms)
      (do unread; expressionStatement (derive budget) start) t.Same R :=
    fun start => .bind .unread fun _ _ => hgives start
  refine .bind (.next (Atom.admits_of_opens hopens true)) fun token htoken => ?_
  rw [htoken.kind]
  cases hkind : (Atom.first atoms).kind with
  | identifier name =>
      refine .bind (.peek_behind h.admits) fun following hfollowing => ?_
      rw [if_neg (by simpa [hfollowing.isPunctuator] using h.no_label name hkind)]
      exact hunread token.span
  | keyword word =>
      simp only [Atom.opens, hkind] at hopens
      cases word <;> first | exact hunread token.span | cases hopens
  | punctuator sign =>
      have hbrace := h.no_brace
      simp only [Atom.opens, hkind] at hopens
      cases sign <;> first | exact absurd hkind hbrace | exact hunread token.span | cases hopens
  | _ => exact hunread token.span

theorem readsStatement_expression {value : Tree} (h : Derives line false 1 value.Same atoms)
    (hstarts : StartsExpression atoms) (isOpen : Bool) (span : Span) :
    ReadsStatement line labels isOpen (.ofList .semicolon span [value.withRole .expression])
      fun kept => atoms ++ semicolonAtoms kept := by
  refine .of_form (fun kept => ?_) fun kept budget e rest he _ hbudget hturns hends => ?_
  · rw [h.first_append]
    exact .of_opens h.opens
  · rw [List.length_append] at hbudget hturns
    rw [List.append_assoc]
    refine gives_bareStatement_of_startsExpression (hstarts.append h.ne_nil hends) ?_ fun start => ?_
    · rw [h.first_append]
      exact h.opens
    · refine .bind (h.expression (by simp [he]) (by omega) (by omega) hends.follow_semicolon)
        fun value' hvalue => ?_
      refine .bind (gives_endStatement hends) fun _ _ => ?_
      refine .bind (.spanFrom _) fun span' _ => ?_
      exact .pure (Tree.same_ofList (.single (hvalue.withRole _)))

/-! ### Heads of `for` -/

/-- The atoms of an expression that may be missing. -/
inductive DerivesPart (line : Nat) (shy : Bool) : Option Tree → List Atom → Prop where
  | none : DerivesPart line shy none []
  | some {t : Tree} {atoms : List Atom} (h : Derives line shy 1 t.Same atoms) :
      DerivesPart line shy (some t) atoms

theorem gives_acceptEach :
    Gives e (At line (.sign .openParen :: atoms)) acceptEach (· = false)
      (At line (.sign .openParen :: atoms)) := by
  refine .bind (.peek rfl) fun token htoken => ?_
  rw [htoken.kind]
  exact .pure rfl

theorem DerivesPart.admits {shy : Bool} {part : Option Tree} (h : DerivesPart line shy part atoms)
    {ending : Punctuator} (hending : (Atom.sign ending).admits true) :
    (Atom.first (atoms ++ .sign ending :: rest)).admits true := by
  cases h with
  | none => exact hending
  | some h => exact h.admits _

/-- The first part of the head is no list of declarations. -/
theorem gives_forSetup {setup : Tree} (h : Derives line true 1 setup.Same atoms) {budget : Nat}
    {token : Token} (htoken : token.Is (Atom.first atoms))
    (hbudget : 3 * atoms.length + 3 ≤ budget) (hturns : atoms.length < e.turns)
    (hfollow : (Atom.first rest).follow = 0) :
    Gives e (At line (atoms ++ rest)) (forSetup (derive budget) token)
      (fun r => ∃ t', r = (t', none) ∧ setup.Same t') (At line rest) := by
  have hvalue : Gives { e with noIn := true } (At line (atoms ++ rest))
      (do return (← expression (derive budget), none))
      (fun r : Tree × Option Declarations => ∃ t', r = (t', none) ∧ setup.Same t') (At line rest) :=
    .bind (h.expression (fun _ => rfl) hbudget hturns hfollow) fun t' ht' => .pure ⟨t', rfl, ht'⟩
  have hopens := h.opens
  unfold forSetup
  refine .withReader ?_
  rw [htoken.kind]
  cases hkind : (Atom.first atoms).kind with
  | keyword word =>
      simp only [Atom.opens, hkind] at hopens
      cases word <;> first | exact hvalue | cases hopens
  | _ => exact hvalue

/-- Another part of the head, with the sign that ends it. -/
theorem gives_optionalPart {part : Option Tree} (h : DerivesPart line false part atoms)
    {budget : Nat} {ending : Punctuator} (hfollow : (Atom.sign ending).follow = 0)
    (hopens : (Atom.sign ending).opens = false) (hadmits : (Atom.sign ending).admits true)
    (he : e.noIn = false) (hbudget : 3 * atoms.length + 3 ≤ budget)
    (hturns : atoms.length < e.turns) :
    Gives e (At line (atoms ++ .sign ending :: rest)) (optionalPart (derive budget) ending)
      (Option.Rel Tree.Same part) (At line rest) := by
  refine .bind (.peek (h.admits hadmits)) fun token htoken => ?_
  refine .ite_bind (φ := Option.Rel Tree.Same part) (R := At line (.sign ending :: rest)) ?_
    fun part' hpart' => ?_
  · cases h with
    | none =>
        rw [if_pos (by rw [htoken.isPunctuator]; exact beq_self_eq_true _)]
        exact .pure .none
    | some h =>
        rw [h.first_append] at htoken
        rw [if_neg (by simpa [htoken.isPunctuator] using Atom.kind_ne_of_opens h.opens hopens)]
        have hvalue : Gives e (At line (atoms ++ .sign ending :: rest))
          (expression (derive budget)) _ _ :=
          h.expression (by simp [he]) hbudget hturns hfollow
        exact .bind hvalue fun t' ht' => .pure (.some ht')
  · refine .bind (.expect rfl (Atom.admits_of_follow (by omega))) fun _ _ => ?_
    exact .pure hpart'

theorem readsStatement_forLoop {setup condition update : Option Tree}
    {setupAtoms conditionAtoms updateAtoms : List Atom}
    (hsetup : DerivesPart line true setup setupAtoms)
    (hcondition : DerivesPart line false condition conditionAtoms)
    (hupdate : DerivesPart line false update updateAtoms)
    (hbody : ReadsStatement line labels isOpen body bodyAtoms) (span : Span) :
    ReadsStatement line labels isOpen
      (.ofList .forLoop span (Tree.part .setup setup ++ Tree.part .condition condition ++
        Tree.part .update update ++ [body.withRole .body]))
      fun kept => .word .kwFor :: .sign .openParen :: (setupAtoms ++ .sign .semicolon ::
        (conditionAtoms ++ .sign .semicolon ::
          (updateAtoms ++ .sign .closeParen :: bodyAtoms kept))) := by
  refine .of_form (fun _ => .of_word nofun) fun kept budget e rest he hlabels hbudget hturns hends => ?_
  simp only [List.length_cons, List.length_append] at hbudget hturns
  rw [List.cons_append, List.cons_append, List.append_assoc, List.cons_append, List.append_assoc,
    List.cons_append, List.append_assoc, List.cons_append]
  -- behind the first semicolon both kinds of head go on alike
  have htail : ∀ start setup', Option.Rel Tree.Same setup setup' →
      Gives e (At line (.sign .semicolon :: (conditionAtoms ++ .sign .semicolon ::
          (updateAtoms ++ .sign .closeParen :: (bodyAtoms kept ++ rest)))))
        (do
          let _ ← expect .semicolon
          let condition ← optionalPart (derive budget) .semicolon
          let update ← optionalPart (derive budget) .closeParen
          let body ← statementIn (derive budget) .loop
          return .ofList .forLoop (← spanFrom start)
            (Tree.part .setup setup' ++ Tree.part .condition condition ++
              Tree.part .update update ++ [body.withRole .body]))
        (Tree.ofList .forLoop span (Tree.part .setup setup ++ Tree.part .condition condition ++
          Tree.part .update update ++ [body.withRole .body])).Same (At line rest) := by
    intro start setup' hsetup'
    refine .bind (.expect rfl rfl) fun _ _ => ?_
    refine .bind (gives_optionalPart hcondition rfl rfl rfl he (by omega) (by omega))
      fun condition' hcondition' => ?_
    refine .bind (gives_optionalPart hupdate rfl rfl rfl he (by omega) (by omega))
      fun update' hupdate' => ?_
    refine .bind (hbody.inside he (hlabels.inside rfl) (by omega) (by omega) hends)
      fun body' hbody' => ?_
    refine .bind (.spanFrom _) fun span' _ => ?_
    exact .pure (Tree.same_ofList (.append (.append (.append (.part _ hsetup')
      (.part _ hcondition')) (.part _ hupdate')) (.single (hbody'.withRole _))))
  refine .bind (.take rfl) fun token htoken => ?_
  rw [htoken.kind]
  refine .bind gives_acceptEach fun each heach => ?_
  subst heach
  refine .bind (.expect rfl rfl) fun _ _ => ?_
  refine .bind (.peek (hsetup.admits rfl)) fun first hfirst => ?_
  cases hsetup with
  | none =>
      rw [if_pos (by rw [hfirst.isPunctuator]; rfl)]
      refine .bind (.pure (φ := (· = (none, none))) rfl) ?_
      rintro _ rfl
      refine .bind (.not_acceptWord nofun rfl) fun found hfound => ?_
      subst hfound
      exact htail _ none .none
  | some h =>
      rw [h.first_append] at hfirst
      rw [if_neg (by simpa [hfirst.isPunctuator] using Atom.kind_ne_of_opens h.opens rfl)]
      refine .bind (gives_forSetup h hfirst (by omega) (by omega) rfl) ?_
      rintro _ ⟨setup', rfl, hsetup'⟩
      refine .bind (.pure (φ := (· = (some setup', none))) rfl) ?_
      rintro _ rfl
      refine .bind (.not_acceptWord nofun rfl) fun found hfound => ?_
      subst hfound
      exact htail _ (some setup') (.some hsetup')

end Grammar

end ScriptMin
