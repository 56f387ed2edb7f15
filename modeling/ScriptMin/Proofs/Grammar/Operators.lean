import Mathlib.Data.List.Forall2
import ScriptMin.Proofs.Grammar.Ladder

/-!
How operators are read. The operators of a binary level stand in a chain, which the grammar
reads in a loop: the loop has read the chain so far as one tree and goes on with what follows.
All other operators are read at once.
-/

namespace ScriptMin

open ScriptMin.Grammar ScriptMin.Stream

def Atom.sign (p : Punctuator) : Atom := ⟨.punctuator p, none⟩

namespace Tree

/-- Trees of two lists are the same one by one. -/
def SameAll (ts ts' : List Tree) : Prop := ts'.map plain = ts.map plain

theorem SameAll.nil : SameAll [] [] := rfl

theorem SameAll.cons {t t' : Tree} {ts ts' : List Tree} (h : t.Same t') (hs : SameAll ts ts') :
    SameAll (t :: ts) (t' :: ts') := by
  rw [SameAll, List.map_cons, List.map_cons, h, hs]

theorem SameAll.single {t t' : Tree} (h : t.Same t') : SameAll [t] [t'] := .cons h .nil

theorem SameAll.append {ts ts' us us' : List Tree} (h : SameAll ts ts') (h' : SameAll us us') :
    SameAll (ts ++ us) (ts' ++ us') := by
  rw [SameAll, List.map_append, List.map_append, h, h']

theorem same_node {head : Head} {span : Span} {ts ts' : List Tree} (h : SameAll ts ts') :
    (node head ts).Same (node { head with span } ts') := by
  rw [Same, plain_node, plain_node, h]

theorem same_ofList {kind : Kind} {span span' : Span} {ts ts' : List Tree} (h : SameAll ts ts') :
    (ofList kind span ts).Same (ofList kind span' ts') :=
  same_node h

end Tree

namespace Grammar

variable {line : Nat} {shy : Bool} {φ : Tree → Prop} {t left right operand : Tree}
  {atoms leftAtoms rightAtoms : List Atom} {sign : Atom}

/-- An expression where the grammar asks for an assignment. -/
theorem Derives.assignment (h : Derives line shy 2 φ atoms) {budget : Nat} {e : Surroundings}
    {rest : List Atom} (he : e.noIn → shy) (hbudget : 3 * atoms.length + 3 ≤ budget)
    (hturns : atoms.length < e.turns) (hfollow : (Atom.first rest).follow < 2) :
    Gives e (At line (atoms ++ rest)) (derive budget .assignment) φ (At line rest) := by
  have hslack : slack 2 = 2 := rfl
  obtain ⟨budget, rfl⟩ := Nat.exists_eq_add_one.mpr (show 0 < budget by omega)
  exact h.reads budget e rest he (by omega) hturns hfollow

/-! ### Binary operators -/

/-- Atoms that are operands with the operators of one binary level between them. Once the loop
of the level has read them as a tree, it goes on with what follows. -/
structure BinaryChain (line : Nat) (shy : Bool) (n : Nat) (t : Tree) (atoms : List Atom) :
    Prop where
  opens : (Atom.first atoms).opens
  runs : ∀ (budget : Nat) (e : Surroundings) (rest : List Atom) (φ : Tree → Prop)
    (R : Stream → Prop), (e.noIn → shy) → 3 * atoms.length + 2 ≤ budget →
    atoms.length < e.turns → (Atom.first rest).follow < 14 - n →
    (∀ start left turns, t.Same left → e.turns ≤ turns + atoms.length →
      Gives e (At line rest)
        (repeatFrom (binaryTurn (binary (derive budget) n) n start) turns left) φ R) →
    Gives e (At line (atoms ++ rest)) (binary (derive budget) (n + 1)) φ R

namespace BinaryChain

variable {n : Nat}

theorem of_operand (hn : n < binaryLevels) (h : Derives line shy (14 - n) t.Same atoms) :
    BinaryChain line shy n t atoms where
  opens := h.opens
  runs := by
    intro budget e rest φ R he hbudget hturns hfollow hloop
    have hoperand := h.reads.operand hn he hbudget hturns hfollow
    refine .bind (.peek (h.admits rest)) fun token _ => ?_
    refine .bind hoperand fun first hfirst => ?_
    exact .repeatTurns (hloop token.span first e.turns hfirst (by omega))

/-- Atoms that are shy of `in` have no `in` among the operators of the chain. -/
theorem operator {level : Nat} {op : Kind} (hlevel : level + n + 1 = binaryLevels)
    (hop : binaryOperator? sign.kind = some (level, op)) (hin : op = .isIn → shy = false)
    (hleft : BinaryChain line shy n left leftAtoms)
    (hright : Derives line shy (14 - n) right.Same rightAtoms) (span : Span) :
    BinaryChain line shy n (.ofList op span [left, right]) (leftAtoms ++ sign :: rightAtoms) where
  opens := by
    rw [Atom.first_append (Atom.ne_nil_of_opens hleft.opens)]
    exact hleft.opens
  runs := by
    intro budget e rest φ R he hbudget hturns hfollow hloop
    have hn : n < binaryLevels := by omega
    simp only [binaryLevels] at hlevel
    simp only [List.length_append, List.length_cons] at hbudget hturns hloop
    have hsign := Atom.follow_binary hop
    rw [List.append_assoc, List.cons_append]
    refine hleft.runs budget e _ φ R he (by omega) (by omega)
      (by rw [Atom.first_cons]; omega) ?_
    intro start left' turns hleft' hturns'
    obtain ⟨turns, rfl⟩ := Nat.exists_eq_add_one.mpr (show 0 < turns by omega)
    have hoperand := hright.reads.operand hn he (show _ ≤ budget by omega)
      (show _ < e.turns by omega) hfollow
    refine .again (θ := (Tree.ofList op span [left, right]).Same) (R := At line rest) ?_ ?_
    · refine .bind (.peek (Atom.admits_of_follow (by rw [Atom.first_cons]; omega)))
        fun token htoken => ?_
      rw [htoken.kind, Atom.first_cons, hop]
      refine .bind .read fun surroundings hsurroundings => ?_
      have hnot : ¬ (op = .isIn ∧ surroundings.noIn) := by
        rintro ⟨rfl, hno⟩
        exact absurd (he (hsurroundings ▸ hno)) (by simp [hin rfl])
      rw [if_pos ⟨by simp only [binaryLevels]; omega, hnot⟩]
      refine .bind (.take (Atom.admits_of_follow (by omega))) fun _ _ => ?_
      refine .bind hoperand fun right' hright' => ?_
      refine .bind (.spanFrom start) fun span' _ => ?_
      exact .pure ⟨_, rfl, Tree.same_ofList (.cons hleft' (.single hright'))⟩
    · intro result hresult
      exact hloop start result turns hresult (by omega)

theorem derives (hn : n < binaryLevels) (h : BinaryChain line shy n t atoms) :
    Derives line shy (13 - n) t.Same atoms where
  opens := h.opens
  opensMember hlevel := by omega
  reads := by
    intro budget e rest he hbudget hturns hfollow
    rw [slack_binary hn] at hbudget
    rw [ladder_binary _ hn]
    refine h.runs budget e rest _ _ he hbudget hturns (by omega) ?_
    intro start left turns hleft hturns'
    obtain ⟨turns, rfl⟩ := Nat.exists_eq_add_one.mpr (show 0 < turns by omega)
    exact .done (binaryTurn_done (by omega) hleft)

end BinaryChain

/-! ### Unary operators -/

theorem derives_unary {op : Kind} (hop : unaryOperator? sign.kind = some op) (hopens : sign.opens)
    (h : Derives line shy 14 operand.Same atoms) (span : Span) :
    Derives line shy 14 (Tree.ofList op span [operand]).Same (sign :: atoms) where
  opens := hopens
  opensMember hlevel := by omega
  reads := by
    intro budget e rest he hbudget hturns hfollow
    have hslack : slack 14 = 1 := rfl
    rw [List.length_cons] at hbudget hturns
    obtain ⟨budget, rfl⟩ := Nat.exists_eq_add_one.mpr (show 0 < budget by omega)
    have hoperand := h.reads budget e rest he (by omega) (by omega) hfollow
    show Gives e _ (unary (derive (budget + 1))) _ _
    refine .bind (.take (Atom.admits_of_opens hopens true)) fun token htoken => ?_
    rw [htoken.kind, hop]
    refine .bind hoperand fun operand' hoperand' => ?_
    refine .bind (.spanFrom token.span) fun span' _ => ?_
    exact .pure (Tree.same_ofList (.single hoperand'))

theorem Target.of_isReference {t t' : Tree} (hsame : t.Same t') (h : t.isReference) :
    Target.of t' = .simple ∨ Target.of t' = .call := by
  have hkind := hsame.kind
  simp only [Tree.isReference] at h
  simp only [Target.of, hkind]
  generalize t.kind = kind at h
  cases kind <;> cases h <;> first | exact .inl rfl | exact .inr rfl

theorem gives_checkUpdateTarget {t t' : Tree} (hsame : t.Same t') (h : t.isReference)
    {e : Surroundings} {P : Stream → Prop} {number : Nat} :
    Gives e P (checkUpdateTarget t' number) (fun _ => True) P := by
  unfold checkUpdateTarget
  obtain htarget | htarget := Target.of_isReference hsame h
  all_goals
    rw [htarget]
    exact .pure trivial

theorem derives_update {op : Kind} (hop : updateOperator? sign.kind = some op) (hopens : sign.opens)
    (hreference : operand.isReference) (h : Derives line shy 14 operand.Same atoms) (span : Span) :
    Derives line shy 14 (Tree.ofList op span [operand]).Same (sign :: atoms) where
  opens := hopens
  opensMember hlevel := by omega
  reads := by
    intro budget e rest he hbudget hturns hfollow
    have hslack : slack 14 = 1 := rfl
    rw [List.length_cons] at hbudget hturns
    obtain ⟨budget, rfl⟩ := Nat.exists_eq_add_one.mpr (show 0 < budget by omega)
    have hoperand := h.reads budget e rest he (by omega) (by omega) hfollow
    have hunary : unaryOperator? sign.kind = none := by
      unfold updateOperator? at hop
      split at hop
      case h_1 hkind => rw [hkind]; rfl
      case h_2 hkind => rw [hkind]; rfl
      case h_3 => cases hop
    show Gives e _ (unary (derive (budget + 1))) _ _
    unfold unary
    refine .bind (.take (Atom.admits_of_opens hopens true)) fun token htoken => ?_
    rw [htoken.kind, hunary, hop]
    refine .bind hoperand fun operand' hoperand' => ?_
    refine .bind (gives_checkUpdateTarget hoperand' hreference) fun _ _ => ?_
    refine .bind (.spanFrom token.span) fun span' _ => ?_
    exact .pure (Tree.same_ofList (.single hoperand'))

/-- An increment behind its operand, which is on the same line. -/
theorem derives_trailing {op : Kind} (hop : updateOperator? sign.kind = some op)
    (hreference : operand.isReference) (h : Derives line shy 17 operand.Same atoms) (span : Span) :
    Derives line shy 14
      (Tree.node { kind := op, span, flags := { trailing := true } } [operand]).Same
        (atoms ++ [sign]) where
  opens := by
    rw [h.first_append]
    exact h.opens
  opensMember hlevel := by omega
  reads := by
    intro budget e rest he hbudget hturns hfollow
    have hslack : slack 14 = 1 := rfl
    have hslack' : slack 17 = 0 := rfl
    have hsign := Atom.follow_update hop
    rw [List.length_append, List.length_singleton] at hbudget hturns
    obtain ⟨budget, rfl⟩ := Nat.exists_eq_add_one.mpr (show 0 < budget by omega)
    have hoperand := h.reads budget e (sign :: rest) he (by omega) (by omega)
      (by rw [Atom.first_cons]; omega)
    have hopens := h.opensMember (by omega)
    simp only [Atom.opensMember, Bool.and_eq_true, Option.isNone_iff_eq_none] at hopens
    obtain ⟨⟨-, hunary⟩, hupdate⟩ := hopens
    have hadmits : sign.admits false := Atom.admits_of_follow (by omega)
    rw [List.append_assoc]
    show Gives e _ (unary (derive (budget + 1))) _ _
    unfold unary
    refine .bind (.next (h.admits _)) fun token htoken => ?_
    rw [htoken.kind, h.first_append, hunary, hupdate]
    refine .bind .unread fun _ _ => ?_
    refine .bind hoperand fun operand' hoperand' => ?_
    refine .bind (.peekOnLine hadmits) fun following hfollowing => ?_
    rw [hfollowing.kind, Atom.first_cons, hop]
    refine .bind (.take hadmits) fun _ _ => ?_
    refine .bind (gives_checkUpdateTarget hoperand' hreference) fun _ _ => ?_
    refine .bind (.spanFrom token.span) fun span' _ => ?_
    exact .pure (Tree.same_node (.single hoperand'))

/-! ### Assignments and conditional expressions -/

theorem isAssignable_of_isReference {t t' : Tree} (hsame : t.Same t') (h : t.isReference)
    (op : Option Kind) : isAssignable op t' := by
  unfold isAssignable
  obtain htarget | htarget := Target.of_isReference hsame h
  all_goals rw [htarget]

theorem derives_assign {op : Option Kind} (hsign : sign.kind = .punctuator .assign)
    (hop : (sign.op.bind fun p => binaryOperator? (.punctuator p)).map (·.2) = op)
    (hleft : Derives line shy 3 φ leftAtoms)
    (htarget : ∀ target, φ target → left.Same target ∧ isAssignable op target)
    (hright : Derives line shy 2 right.Same rightAtoms) (span : Span) :
    Derives line shy 2 (Tree.node { kind := .assign, span, assignOp := op } [left, right]).Same
      (leftAtoms ++ sign :: rightAtoms) where
  opens := by
    rw [hleft.first_append]
    exact hleft.opens
  opensMember hlevel := by omega
  reads := by
    intro budget e rest he hbudget hturns hfollow
    have hslack : slack 2 = 2 := rfl
    have hslack' : slack 3 = 2 := rfl
    have hsignFollow : sign.follow = 2 := Atom.follow_of_kind hsign
    have hadmits : sign.admits false := Atom.admits_of_follow (by omega)
    simp only [List.length_append, List.length_cons] at hbudget hturns
    rw [List.append_assoc, List.cons_append]
    have hreads := hleft.reads budget e (sign :: (rightAtoms ++ rest)) he (by omega) (by omega)
      (by rw [Atom.first_cons]; omega)
    show Gives e _ (assignment (derive budget)) _ _
    refine .bind (.peek (hleft.admits _)) fun first hfirst => ?_
    rw [if_neg (hleft.isKeyword_yield hfirst)]
    refine .bind hreads fun target hread => ?_
    obtain ⟨hsame, hassignable⟩ := htarget target hread
    refine .bind (.peek hadmits) fun token htoken => ?_
    rw [if_pos (by simp [htoken.isPunctuator, hsign])]
    refine .bind (.take hadmits) fun _ _ => ?_
    rw [htoken.op, Atom.first_cons, hop, if_pos hassignable]
    refine .bind (hright.assignment he (by omega) (by omega) hfollow) fun value hvalue => ?_
    refine .bind (.spanFrom first.span) fun span' _ => ?_
    exact .pure (Tree.same_node (.cons hsame (.single hvalue)))

/-- The last part of a conditional expression is an assignment, so nothing but a comma can
follow it. -/
theorem derives_conditional {condition thenPart elsePart : Tree}
    {conditionAtoms thenAtoms elseAtoms : List Atom}
    (hcondition : Derives line shy 4 condition.Same conditionAtoms) {thenShy : Bool}
    (hthen : Derives line thenShy 2 thenPart.Same thenAtoms)
    (helse : Derives line shy 2 elsePart.Same elseAtoms) (span : Span) :
    Derives line shy 2 (Tree.ofList .conditional span [condition, thenPart, elsePart]).Same
      (conditionAtoms ++ .sign .question :: (thenAtoms ++ .sign .colon :: elseAtoms)) where
  opens := by
    rw [hcondition.first_append]
    exact hcondition.opens
  opensMember hlevel := by omega
  reads := by
    intro budget e rest he hbudget hturns hfollow
    have hslack : slack 2 = 2 := rfl
    have hslack' : slack 4 = 2 := rfl
    simp only [List.length_append, List.length_cons] at hbudget hturns
    simp only [List.append_assoc, List.cons_append]
    have hreads := hcondition.reads budget e
      (.sign .question :: (thenAtoms ++ .sign .colon :: (elseAtoms ++ rest))) he (by omega) (by omega)
      (show 3 < 4 by omega)
    have hassign := Atom.kind_ne_of_follow hfollow
      (show 2 ≤ Atom.follow ⟨.punctuator .assign, none⟩ by decide)
    show Gives e _ (assignment (derive budget)) _ _
    refine .bind (.peek (hcondition.admits _)) fun first hfirst => ?_
    rw [if_neg (hcondition.isKeyword_yield hfirst)]
    refine .bind (φ := (Tree.ofList .conditional span [condition, thenPart, elsePart]).Same)
      (R := At line rest) ?_ fun target htarget => ?_
    · refine .bind (.peek (hcondition.admits _)) fun first _ => ?_
      refine .bind hreads fun condition' hcondition' => ?_
      refine .bind (.accept rfl rfl) fun found hfound => ?_
      subst hfound
      refine .bind (.allowIn (hthen.assignment nofun (by omega) (show _ < e.turns by omega)
        (show 0 < 2 by omega))) fun thenPart' hthen' => ?_
      refine .bind (.expect rfl rfl) fun _ _ => ?_
      refine .bind (helse.assignment he (by omega) (by omega) hfollow) fun elsePart' helse' => ?_
      refine .bind (.spanFrom first.span) fun span' _ => ?_
      exact .pure (Tree.same_ofList (.cons hcondition' (.cons hthen' (.single helse'))))
    · refine .bind (.peek (Atom.admits_of_follow (by omega))) fun token htoken => ?_
      rw [if_neg (by simpa [htoken.isPunctuator] using hassign)]
      exact .pure htarget

/-! ### Comma expressions -/

def commaAtoms (parts : List (List Atom)) : List Atom := parts.flatMap (.sign .comma :: ·)

theorem commaAtoms_cons (atoms : List Atom) (parts : List (List Atom)) :
    commaAtoms (atoms :: parts) = .sign .comma :: (atoms ++ commaAtoms parts) :=
  rfl

theorem gives_commaTurns {ts : List Tree} {parts : List (List Atom)}
    (h : List.Forall₂ (fun t => Derives line shy 2 t.Same) ts parts) {budget : Nat} {e : Surroundings}
    {rest : List Atom} (he : e.noIn → shy) (hbudget : 3 * (commaAtoms parts).length ≤ budget)
    (hturns : (commaAtoms parts).length < e.turns) (hfollow : (Atom.first rest).follow < 1)
    {turns : Nat} (hloop : (commaAtoms parts).length < turns) (trees : List Tree) :
    Gives e (At line (commaAtoms parts ++ rest)) (repeatFrom (commaTurn (derive budget)) turns trees)
      (fun result => ∃ ts', Tree.SameAll ts ts' ∧ result = trees.reverse ++ ts') (At line rest) := by
  obtain ⟨turns, rfl⟩ := Nat.exists_eq_add_one.mpr (show 0 < turns by omega)
  induction h generalizing trees turns with
  | nil =>
      have hcomma := Atom.kind_ne_of_follow hfollow
        (show 1 ≤ Atom.follow ⟨.punctuator .comma, none⟩ by decide)
      have hadmits : (Atom.first rest).admits false := Atom.admits_of_follow (by omega)
      refine .done ?_
      refine .bind (.not_accept hcomma hadmits) fun found hfound => ?_
      subst hfound
      exact .pure ⟨_, rfl, [], .nil, by rw [List.append_nil]⟩
  | @cons t atoms ts parts ht hts ih =>
      rw [commaAtoms_cons, List.length_cons, List.length_append] at hbudget hturns hloop
      rw [commaAtoms_cons, List.cons_append, List.append_assoc]
      have hnext : (Atom.first (commaAtoms parts ++ rest)).follow < 2 := by
        cases parts with
        | nil => exact Nat.lt_succ_of_lt hfollow
        | cons => exact (show 1 < 2 by omega)
      obtain ⟨turns, rfl⟩ := Nat.exists_eq_add_one.mpr (show 0 < turns by omega)
      refine .again (θ := fun state => ∃ t', t.Same t' ∧ state = t' :: trees)
        (R := At line (commaAtoms parts ++ rest)) ?_ ?_
      · refine .bind (.accept rfl rfl) fun found hfound => ?_
        subst hfound
        refine .bind (ht.assignment he (by omega) (by omega) hnext) fun t' ht' => ?_
        exact .pure ⟨_, rfl, t', ht', rfl⟩
      · rintro _ ⟨t', ht', rfl⟩
        refine (ih (by omega) (by omega) _ turns (by omega)).mono ?_
        rintro _ ⟨ts', hts', rfl⟩
        exact ⟨t' :: ts', .cons ht' hts', by simp⟩

theorem derives_comma {first : Tree} {firstAtoms : List Atom} {ts : List Tree}
    {parts : List (List Atom)} (hfirst : Derives line shy 2 first.Same firstAtoms)
    (h : List.Forall₂ (fun t => Derives line shy 2 t.Same) ts parts) (hne : ts ≠ []) (span : Span) :
    Derives line shy 1 (Tree.ofList .comma span (first :: ts)).Same
      (firstAtoms ++ commaAtoms parts) where
  opens := by
    rw [hfirst.first_append]
    exact hfirst.opens
  opensMember hlevel := by omega
  reads := by
    intro budget e rest he hbudget hturns hfollow
    have hslack : slack 1 = 3 := rfl
    rw [List.length_append] at hbudget hturns
    have hcomma : Atom.first (commaAtoms parts ++ rest) = .sign .comma := by
      cases h with
      | nil => exact absurd rfl hne
      | cons => rfl
    rw [List.append_assoc]
    show Gives e _ (expression (derive budget)) _ _
    refine .bind (.peek (hfirst.admits _)) fun token _ => ?_
    refine .bind (hfirst.assignment he (by omega) (by omega)
      (by rw [hcomma]; exact (show 1 < 2 by omega)))
      fun first' hfirst' => ?_
    refine .bind (.peek (by rw [hcomma]; rfl)) fun sign hsign => ?_
    rw [if_pos (by rw [hsign.isPunctuator, hcomma]; rfl)]
    refine .bind (.repeatTurns
      (gives_commaTurns h he (by omega) (by omega) hfollow (by omega) [first']))
      fun trees htrees => ?_
    refine .bind (.spanFrom token.span) fun span' _ => ?_
    obtain ⟨ts', hts', rfl⟩ := htrees
    exact .pure (Tree.same_ofList (.cons hfirst' hts'))

end Grammar

end ScriptMin
