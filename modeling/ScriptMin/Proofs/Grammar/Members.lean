import ScriptMin.Proofs.Grammar.Operators

/-!
How member access, calls and `new` are read. As with the operators of a binary level, the
grammar reads the suffixes of a member access in a loop, so what stands in front of a suffix
is read as a tree with which the loop goes on.
-/

namespace ScriptMin

open ScriptMin.Grammar ScriptMin.Stream

namespace Grammar

variable {line : Nat} {shy : Bool} {φ : Tree → Prop} {t object callee position : Tree}
  {atoms objectAtoms : List Atom}

/-! ### Arguments -/

def itemAtoms : List (List Atom) → List Atom
  | [] => []
  | atoms :: parts => atoms ++ commaAtoms parts

theorem gives_argumentTurns {ts : List Tree} {parts : List (List Atom)}
    (ht : Derives line shy 2 t.Same atoms)
    (h : List.Forall₂ (fun t => Derives line shy 2 t.Same) ts parts) {budget : Nat}
    {e : Surroundings} {rest : List Atom} (he : e.noIn → shy)
    (hbudget : 3 * (itemAtoms (atoms :: parts)).length + 3 ≤ budget)
    (hturns : (itemAtoms (atoms :: parts)).length < e.turns) {turns : Nat}
    (hloop : (itemAtoms (atoms :: parts)).length < turns) (args : List Tree) :
    Gives e (At line (itemAtoms (atoms :: parts) ++ .sign .closeParen :: rest))
      (repeatFrom (argumentTurn (derive budget)) turns args)
      (fun result => ∃ ts', Tree.SameAll (t :: ts) ts' ∧ result = args.reverse ++ ts')
      (At line (.sign .closeParen :: rest)) := by
  induction h generalizing t atoms args turns with
  | nil =>
      obtain ⟨turns, rfl⟩ := Nat.exists_eq_add_one.mpr (show 0 < turns by omega)
      simp only [itemAtoms, commaAtoms, List.flatMap_nil, List.append_nil] at hbudget hturns ⊢
      refine .done ?_
      refine .bind (.peek (ht.admits _)) fun start _ => ?_
      refine .bind (ht.assignment he (by omega) hturns (show 0 < 2 by omega)) fun t' ht' => ?_
      refine .bind (.peek rfl) fun following hfollowing => ?_
      rw [if_neg (by simp [hfollowing.isKeyword, Atom.sign])]
      refine .bind (.pure ht') fun argument hargument => ?_
      have hcomma : TokenKind.punctuator .closeParen ≠ .punctuator .comma := by decide
      refine .bind (.not_accept hcomma rfl) fun found hfound => ?_
      subst hfound
      exact .pure ⟨_, rfl, [argument], .single hargument, List.reverse_cons⟩
  | @cons next nextAtoms ts parts hnext hts ih =>
      obtain ⟨turns, rfl⟩ := Nat.exists_eq_add_one.mpr (show 0 < turns by omega)
      have hatoms : itemAtoms (atoms :: nextAtoms :: parts) =
          atoms ++ .sign .comma :: itemAtoms (nextAtoms :: parts) := rfl
      rw [hatoms, List.length_append, List.length_cons] at hbudget hturns hloop
      rw [hatoms, List.append_assoc, List.cons_append]
      refine .again (θ := fun state => ∃ t', t.Same t' ∧ state = t' :: args)
        (R := At line (itemAtoms (nextAtoms :: parts) ++ .sign .closeParen :: rest)) ?_ ?_
      · refine .bind (.peek (ht.admits _)) fun start _ => ?_
        refine .bind (ht.assignment he (by omega) (by omega) (show 1 < 2 by omega)) fun t' ht' => ?_
        refine .bind (.peek rfl) fun following hfollowing => ?_
        rw [if_neg (by simp [hfollowing.isKeyword, Atom.sign])]
        refine .bind (.pure ht') fun argument hargument => ?_
        refine .bind (.accept rfl rfl) fun found hfound => ?_
        subst hfound
        exact .pure ⟨_, rfl, argument, hargument, rfl⟩
      · rintro _ ⟨t', ht', rfl⟩
        refine (ih hnext (by omega) (by omega) (by omega) _).mono ?_
        rintro _ ⟨ts', hts', rfl⟩
        exact ⟨t' :: ts', .cons ht' hts', by simp⟩

theorem gives_arguments {ts : List Tree} {parts : List (List Atom)}
    (h : List.Forall₂ (fun t => Derives line shy 2 t.Same) ts parts) {budget : Nat} {e : Surroundings}
    {rest : List Atom} (hbudget : 3 * (itemAtoms parts).length + 3 ≤ budget)
    (hturns : (itemAtoms parts).length < e.turns) :
    Gives e (At line (itemAtoms parts ++ .sign .closeParen :: rest)) (arguments (derive budget))
      (Tree.SameAll ts) (At line rest) := by
  refine .allowIn ?_
  cases h with
  | nil =>
      refine .bind (.accept rfl rfl) fun found hfound => ?_
      subst hfound
      exact .pure .nil
  | @cons t atoms ts parts ht hts =>
      have hparen := Atom.kind_ne_of_opens ht.opens
        (show Atom.opens ⟨.punctuator .closeParen, none⟩ = false from rfl)
      have hadmits := Atom.admits_of_opens ht.opens false
      rw [← ht.first_append (commaAtoms parts ++ .sign .closeParen :: rest), ← List.append_assoc]
        at hparen hadmits
      refine .bind (.not_accept hparen hadmits) fun found hfound => ?_
      subst hfound
      refine .bind (.repeatTurns (gives_argumentTurns (e := { e with noIn := false }) ht hts nofun
        hbudget hturns hturns [])) fun args hargs => ?_
      refine .bind (.expect rfl rfl) fun _ _ => ?_
      obtain ⟨ts', hts', rfl⟩ := hargs
      exact .pure hts'

/-! ### Suffixes -/

/-- Atoms that are a member access. Once the loop over the suffixes has read them as a tree,
it goes on with what follows. -/
structure MemberChain (line : Nat) (shy calls : Bool) (φ : Tree → Prop) (atoms : List Atom) :
    Prop where
  opens : (Atom.first atoms).opensMember
  runs : ∀ (budget : Nat) (e : Surroundings) (rest : List Atom) (ψ : Tree → Prop)
    (R : Stream → Prop), (e.noIn → shy) → 3 * atoms.length ≤ budget → atoms.length < e.turns →
    (∀ start object turns, φ object → e.turns ≤ turns + atoms.length →
      Gives e (At line rest) (repeatFrom (suffixTurn (derive budget) calls start) turns object)
        ψ R) →
    Gives e (At line (atoms ++ rest)) (member (derive budget) calls) ψ R

/-- What ends a member access. -/
structure EndsMember (calls : Bool) (a : Atom) : Prop where
  admits : a.admits false
  no_dot : a.kind ≠ .punctuator .dot
  no_bracket : a.kind ≠ .punctuator .openBracket
  no_paren : calls → a.kind ≠ .punctuator .openParen

theorem endsMember_of_follow {a : Atom} (h : a.follow < 17) (calls : Bool) : EndsMember calls a where
  admits := Atom.admits_of_follow (by omega)
  no_dot := Atom.kind_ne_of_follow h (show 17 ≤ Atom.follow ⟨_, none⟩ by decide)
  no_bracket := Atom.kind_ne_of_follow h (show 17 ≤ Atom.follow ⟨_, none⟩ by decide)
  no_paren _ := Atom.kind_ne_of_follow h (show 17 ≤ Atom.follow ⟨_, none⟩ by decide)

theorem suffixTurn_done {self : Self} {calls : Bool} {start : Span} {e : Surroundings}
    {rest : List Atom} (h : EndsMember calls (Atom.first rest))
    (hobject : φ object) :
    Gives e (At line rest) (suffixTurn self calls start object) (fun r => ∃ a, r = .done a ∧ φ a)
      (At line rest) := by
  have hdone : Gives e (Behind line rest)
      (do unread; return .done object : Production (Turn Tree Tree))
      (fun r => ∃ a, r = .done a ∧ φ a) (At line rest) :=
    .bind .unread fun _ _ => .pure ⟨object, rfl, hobject⟩
  refine .bind (.next h.admits) fun token htoken => ?_
  split
  case h_1 hkind => exact absurd (htoken.kind.symm.trans hkind) h.no_dot
  case h_2 hkind => exact absurd (htoken.kind.symm.trans hkind) h.no_bracket
  case h_3 hkind =>
      cases calls with
      | true => exact absurd (htoken.kind.symm.trans hkind) (h.no_paren rfl)
      | false => exact hdone
  case h_4 => exact hdone

namespace MemberChain

variable {calls : Bool}

theorem reads (h : MemberChain line shy calls φ atoms) {budget : Nat} {e : Surroundings}
    {rest : List Atom} (he : e.noIn → shy) (hbudget : 3 * atoms.length ≤ budget)
    (hturns : atoms.length < e.turns) (hends : EndsMember calls (Atom.first rest)) :
    Gives e (At line (atoms ++ rest)) (member (derive budget) calls) φ (At line rest) := by
  refine h.runs budget e rest _ _ he hbudget hturns ?_
  intro start object turns hobject hturns'
  obtain ⟨turns, rfl⟩ := Nat.exists_eq_add_one.mpr (show 0 < turns by omega)
  exact .done (suffixTurn_done hends hobject)

theorem derives (h : MemberChain line shy true φ atoms) : Derives line shy 17 φ atoms where
  opens := Atom.opens_of_opensMember h.opens
  opensMember _ := h.opens
  reads := by
    intro budget e rest he hbudget hturns hfollow
    exact h.reads he hbudget hturns (endsMember_of_follow hfollow true)

/-- A suffix continues a member access if the loop over suffixes takes it for one. -/
theorem suffix (h : MemberChain line shy calls object.Same objectAtoms) (hne : atoms ≠ [])
    (hturn : ∀ (budget : Nat) (e : Surroundings) (rest : List Atom) (start : Span) (object' : Tree),
      3 * atoms.length ≤ budget → atoms.length < e.turns → object.Same object' →
      Gives e (At line (atoms ++ rest)) (suffixTurn (derive budget) calls start object')
        (fun r => ∃ t', r = .again t' ∧ t.Same t') (At line rest)) :
    MemberChain line shy calls t.Same (objectAtoms ++ atoms) where
  opens := by
    rw [Atom.first_append (Atom.ne_nil_of_opens (Atom.opens_of_opensMember h.opens))]
    exact h.opens
  runs := by
    intro budget e rest ψ R he hbudget hturns hloop
    have hlength : 0 < atoms.length := List.length_pos_of_ne_nil hne
    rw [List.length_append] at hbudget hturns
    rw [List.append_assoc]
    refine h.runs budget e _ ψ R he (by omega) (by omega) ?_
    intro start object' turns hobject' hturns'
    obtain ⟨turns, rfl⟩ := Nat.exists_eq_add_one.mpr (show 0 < turns by omega)
    refine .again (hturn budget e rest start object' (by omega) (by omega) hobject') ?_
    intro t' ht'
    exact hloop start t' turns ht' (by rw [List.length_append]; omega)

theorem dot (h : MemberChain line shy calls object.Same objectAtoms) {word : Atom} {name : String}
    (hadmits : word.admits false) (hname : word.kind.propertyName? = some name)
    (span nameSpan : Span) :
    MemberChain line shy calls (Tree.ofList .dot span [object, .identifier name nameSpan]).Same
      (objectAtoms ++ [.sign .dot, word]) := by
  refine h.suffix (List.cons_ne_nil _ _) ?_
  intro budget e rest start object' hbudget hturns hobject'
  refine .bind (.take rfl) fun token htoken => ?_
  rw [htoken.kind]
  refine .bind (.take hadmits) fun nameToken hnameToken => ?_
  rw [hnameToken.kind, hname]
  refine .bind (.spanFrom start) fun span' _ => ?_
  exact .pure ⟨_, rfl, Tree.same_ofList (.cons hobject' (.single (Tree.same_node .nil)))⟩

theorem index (h : MemberChain line shy calls object.Same objectAtoms) {positionShy : Bool}
    (hposition : Derives line positionShy 1 position.Same atoms) (span : Span) :
    MemberChain line shy calls (Tree.ofList .index span [object, position]).Same
      (objectAtoms ++ .sign .openBracket :: (atoms ++ [.sign .closeBracket])) := by
  refine h.suffix (List.cons_ne_nil _ _) ?_
  intro budget e rest start object' hbudget hturns hobject'
  have hslack : slack 1 = 3 := rfl
  simp only [List.length_append, List.length_cons, List.length_nil] at hbudget hturns
  rw [List.cons_append, List.append_assoc]
  have hreads := hposition.reads budget { e with noIn := false } (.sign .closeBracket :: rest) nofun
    (by omega) (show _ < e.turns by omega) (show 0 < 1 by omega)
  refine .bind (.take rfl) fun token htoken => ?_
  rw [htoken.kind]
  refine .bind (.allowIn hreads) fun position' hposition' => ?_
  refine .bind (.expect rfl rfl) fun _ _ => ?_
  refine .bind (.spanFrom start) fun span' _ => ?_
  exact .pure ⟨_, rfl, Tree.same_ofList (.cons hobject' (.single hposition'))⟩

theorem call (h : MemberChain line shy true object.Same objectAtoms) {args : List Tree}
    {parts : List (List Atom)} {argsShy : Bool}
    (hargs : List.Forall₂ (fun t => Derives line argsShy 2 t.Same) args parts)
    (span listSpan : Span) :
    MemberChain line shy true (Tree.ofList .call span [object, .ofList .list listSpan args]).Same
      (objectAtoms ++ .sign .openParen :: (itemAtoms parts ++ [.sign .closeParen])) := by
  refine h.suffix (List.cons_ne_nil _ _) ?_
  intro budget e rest start object' hbudget hturns hobject'
  simp only [List.length_append, List.length_cons, List.length_nil] at hbudget hturns
  rw [List.cons_append, List.append_assoc]
  refine .bind (.take rfl) fun token htoken => ?_
  rw [htoken.kind]
  refine .bind (gives_arguments hargs (by omega) (by omega)) fun args' hargs' => ?_
  refine .bind (.spanFrom start) fun span' _ => ?_
  exact .pure ⟨_, rfl, Tree.same_ofList (.cons hobject' (.single (Tree.same_ofList hargs')))⟩

end MemberChain

/-! ### Creating objects -/

def newAtom : Atom := ⟨.keyword .kwNew, none⟩

/-- The class of a `new` contains no call, so a parenthesis behind it starts the
arguments. -/
theorem MemberChain.newArgs {calls : Bool} (h : MemberChain line shy false callee.Same atoms)
    {args : List Tree} {parts : List (List Atom)} {argsShy : Bool}
    (hargs : List.Forall₂ (fun t => Derives line argsShy 2 t.Same) args parts)
    (span listSpan : Span) :
    MemberChain line shy calls (Tree.ofList .newArgs span [callee, .ofList .list listSpan args]).Same
      (newAtom :: (atoms ++ .sign .openParen :: (itemAtoms parts ++ [.sign .closeParen]))) where
  opens := rfl
  runs := by
    intro budget e rest φ R he hbudget hturns hloop
    simp only [List.length_append, List.length_cons, List.length_nil] at hbudget hturns hloop
    obtain ⟨budget, rfl⟩ := Nat.exists_eq_add_one.mpr (show 0 < budget by omega)
    have hcallee := h.reads he (show _ ≤ budget by omega) (show _ < e.turns by omega)
      (show EndsMember false (Atom.first (.sign .openParen ::
        (itemAtoms parts ++ .sign .closeParen :: rest))) from ⟨rfl, nofun, nofun, nofun⟩)
    simp only [List.cons_append, List.append_assoc, List.nil_append]
    refine .bind (.take rfl) fun token htoken => ?_
    rw [if_pos (by rw [htoken.isKeyword]; rfl)]
    refine .bind hcallee fun callee' hcallee' => ?_
    refine .bind (.accept rfl rfl) fun found hfound => ?_
    subst hfound
    refine .bind (gives_arguments hargs (by omega) (by omega)) fun args' hargs' => ?_
    refine .bind (.spanFrom token.span) fun span' _ => ?_
    refine .repeatTurns (hloop token.span _ e.turns ?_ (by omega))
    exact Tree.same_ofList (.cons hcallee' (.single (Tree.same_ofList hargs')))

theorem derives_newBare (h : MemberChain line shy false callee.Same atoms) (span : Span) :
    Derives line shy 16 (Tree.ofList .newBare span [callee]).Same (newAtom :: atoms) where
  opens := rfl
  opensMember _ := rfl
  reads := by
    intro budget e rest he hbudget hturns hfollow
    rw [List.length_cons] at hbudget hturns
    obtain ⟨budget, rfl⟩ := Nat.exists_eq_add_one.mpr (show 0 < budget by omega)
    have hends : ∀ calls, EndsMember calls (Atom.first rest) :=
      endsMember_of_follow (by omega)
    have hcallee := h.reads he (show _ ≤ budget by omega) (show _ < e.turns by omega) (hends false)
    have hslack : slack 16 = 0 := rfl
    obtain ⟨turns, hturns'⟩ := Nat.exists_eq_add_one.mpr (show 0 < e.turns by omega)
    show Gives e _ (member (derive (budget + 1)) true) _ _
    refine .bind (.take rfl) fun token htoken => ?_
    rw [if_pos (by rw [htoken.isKeyword]; rfl)]
    refine .bind hcallee fun callee' hcallee' => ?_
    refine .bind (.not_accept ((hends true).no_paren rfl) (hends true).admits) fun found hfound => ?_
    subst hfound
    refine .bind (.spanFrom token.span) fun span' _ => ?_
    refine .repeatTurns ?_
    rw [hturns']
    exact .done (suffixTurn_done (hends true) (Tree.same_ofList (.single hcallee')))

end Grammar

end ScriptMin
