import ScriptMin.Proofs.Grammar.Members

/-!
How primary expressions are read: names and literals of one token, expressions in
parentheses, and array and object literals.
-/

namespace ScriptMin

open ScriptMin.Grammar ScriptMin.Stream

namespace Grammar

variable {line : Nat} {shy : Bool} {φ ψ : Tree → Prop} {t key value : Tree} {a : Atom}
  {atoms : List Atom}

/-- Atoms that are a primary expression. It has delimiters of its own, so `in` is an operator
inside it wherever it stands. -/
structure Primary (line : Nat) (φ : Tree → Prop) (atoms : List Atom) : Prop where
  opens : (Atom.first atoms).opensMember
  not_new : (Atom.first atoms).kind ≠ .keyword .kwNew
  reads : ∀ (budget : Nat) (e : Surroundings) (rest : List Atom),
    3 * atoms.length ≤ budget → atoms.length < e.turns →
    Gives e (At line (atoms ++ rest)) (primary (derive budget)) φ (At line rest)

theorem Primary.mono (h : Primary line φ atoms) (himp : ∀ t, φ t → ψ t) : Primary line ψ atoms where
  opens := h.opens
  not_new := h.not_new
  reads budget e rest hbudget hturns := (h.reads budget e rest hbudget hturns).mono himp

theorem Primary.memberChain (h : Primary line φ atoms) (calls : Bool) :
    MemberChain line shy calls φ atoms where
  opens := h.opens
  runs := by
    intro budget e rest ψ R he hbudget hturns hloop
    have hopens := Atom.opens_of_opensMember h.opens
    have hfirst := Atom.first_append (Atom.ne_nil_of_opens hopens) rest
    have hadmits : (Atom.first (atoms ++ rest)).admits true :=
      hfirst ▸ Atom.admits_of_opens hopens true
    refine .bind (.next hadmits) fun token htoken => ?_
    rw [hfirst] at htoken
    rw [if_neg (by simpa [htoken.isKeyword] using h.not_new)]
    refine .bind .unread fun _ _ => ?_
    refine .bind (h.reads budget e rest hbudget hturns) fun first hfirst => ?_
    exact .repeatTurns (hloop token.span first e.turns hfirst (by omega))

theorem Primary.derives (h : Primary line φ atoms) : Derives line shy 17 φ atoms :=
  (h.memberChain true).derives

/-! ### Single tokens -/

theorem primary_identifier (name : String) (span : Span) :
    Primary line (Tree.identifier name span).SameBare [⟨.identifier name, none⟩] where
  opens := rfl
  not_new := nofun
  reads := by
    intro budget e rest hbudget hturns
    refine .bind (.take rfl) fun token htoken => ?_
    rw [htoken.kind]
    exact .pure ⟨Tree.same_node .nil, rfl⟩

theorem primary_number (value : Number) (span : Span) :
    Primary line (Tree.number value span).SameBare [⟨.number value, none⟩] where
  opens := rfl
  not_new := nofun
  reads := by
    intro budget e rest hbudget hturns
    refine .bind (.take rfl) fun token htoken => ?_
    rw [htoken.kind]
    exact .pure ⟨Tree.same_node .nil, rfl⟩

theorem primary_string (text : String) (span : Span) :
    Primary line (Tree.textLeaf .string text span).SameBare [⟨.string text, none⟩] where
  opens := rfl
  not_new := nofun
  reads := by
    intro budget e rest hbudget hturns
    refine .bind (.take rfl) fun token htoken => ?_
    rw [htoken.kind]
    exact .pure ⟨Tree.same_node .nil, rfl⟩

def constantWord? : Kind → Option Keyword
  | .trueLit => some .kwTrue
  | .falseLit => some .kwFalse
  | .nullLit => some .kwNull
  | .thisRef => some .kwThis
  | _ => none

theorem primary_constant {kind : Kind} {word : Keyword} (h : constantWord? kind = some word)
    (span : Span) : Primary line (Tree.leaf kind span).SameBare [⟨.keyword word, none⟩] := by
  unfold constantWord? at h
  split at h
  case h_5 => cases h
  all_goals
    obtain rfl := Option.some.inj h
    refine ⟨rfl, nofun, ?_⟩
    intro budget e rest hbudget hturns
    refine .bind (.take rfl) fun token htoken => ?_
    rw [htoken.kind]
    exact .pure ⟨Tree.same_node .nil, rfl⟩

/-! ### Parentheses -/

theorem primary_parens (h : Derives line shy 1 t.Same atoms) :
    Primary line t.Same (.sign .openParen :: (atoms ++ [.sign .closeParen])) where
  opens := rfl
  not_new := nofun
  reads := by
    intro budget e rest hbudget hturns
    have hslack : slack 1 = 3 := rfl
    simp only [List.length_append, List.length_cons, List.length_nil] at hbudget hturns
    rw [List.cons_append, List.append_assoc]
    have hreads := h.reads budget { e with noIn := false } (.sign .closeParen :: rest) nofun
      (by omega) (show _ < e.turns by omega) (show 0 < 1 by omega)
    refine .bind (.take rfl) fun token htoken => ?_
    rw [htoken.kind]
    refine .allowIn ?_
    refine .bind hreads fun t' ht' => ?_
    refine .bind (.peek rfl) fun following hfollowing => ?_
    rw [if_neg (by simp [hfollowing.isKeyword, Atom.sign])]
    refine .bind (.pure ht') fun value hvalue => ?_
    refine .bind (.expect rfl rfl) fun _ _ => ?_
    exact .pure (by rw [Tree.Same, Tree.plain_parenthesize, hvalue])

/-! ### Array literals -/

/-- Atoms that are the elements of an array literal. A hole is the comma behind it. -/
inductive ElementAtoms (line : Nat) (shy : Bool) : List Tree → List Atom → Prop where
  | nil : ElementAtoms line shy [] []
  | hole {span : Span} {ts : List Tree} {atoms : List Atom} :
      ElementAtoms line shy ts atoms → ElementAtoms line shy (.hole span :: ts) (.sign .comma :: atoms)
  | last {t : Tree} {atoms : List Atom} :
      Derives line shy 2 t.Same atoms → ElementAtoms line shy [t] atoms
  | cons {t : Tree} {ts : List Tree} {atoms rest : List Atom} :
      Derives line shy 2 t.Same atoms → ElementAtoms line shy ts rest →
      ElementAtoms line shy (t :: ts) (atoms ++ .sign .comma :: rest)

/-- What has been read as the elements of an array literal. -/
def SameElements (ts : List Tree) (elements : List (Option Tree)) : Prop :=
  ∀ span, Tree.SameAll ts (elements.map fun e => e.getD (.hole span))

/-- An element that is no hole, up to the sign behind it. -/
theorem gives_element {budget : Nat} {e : Surroundings} {rest : List Atom} {p : Punctuator}
    (h : Derives line shy 2 t.Same atoms) (he : e.noIn → shy) (hbudget : 3 * atoms.length + 3 ≤ budget)
    (hturns : atoms.length < e.turns) (hfollow : (Atom.sign p).follow < 2)
    (elements : List (Option Tree)) {φ : Turn (List (Option Tree)) Elements → Prop}
    (hafter : ∀ t' after, t.Same t' → after.Is (.sign p) →
      Gives e (At line rest) (do
        if after.isPunctuator .closeBracket then
          return .done (.inl (some t' :: elements).reverse)
        if after.isPunctuator .comma then return .again (some t' :: elements)
        unexpected .commaOrBracket after) φ (At line rest)) :
    Gives e (At line (atoms ++ .sign p :: rest)) (elementTurn (derive budget) elements) φ
      (At line rest) := by
  have hclose : (Atom.first atoms).kind ≠ .punctuator .closeBracket :=
    Atom.kind_ne_of_opens h.opens rfl
  have hcomma : (Atom.first atoms).kind ≠ .punctuator .comma :=
    Atom.kind_ne_of_opens h.opens rfl
  have hadmits : (Atom.sign p).admits false := Atom.admits_of_follow (by omega)
  have hread : ∀ t', t.Same t' → Gives e (At line (.sign p :: rest)) (do
      let after ← next false
      if after.isPunctuator .closeBracket then
        return .done (.inl (some t' :: elements).reverse)
      if after.isPunctuator .comma then return .again (some t' :: elements)
      unexpected .commaOrBracket after) φ (At line rest) :=
    fun t' ht' => .bind (.take hadmits) fun after hafter' => hafter t' after ht' hafter'
  refine .bind (.peek (h.admits _)) fun token htoken => ?_
  rw [h.first_append] at htoken
  rw [if_neg (by simpa [htoken.isPunctuator] using hclose),
    if_neg (by simpa [htoken.isPunctuator] using hcomma)]
  refine .bind (h.assignment he hbudget hturns hfollow) fun t' ht' => ?_
  split
  · refine .bind (.peek hadmits) fun following hfollowing => ?_
    rw [if_neg (by simp [hfollowing.isKeyword, Atom.sign])]
    exact hread t' ht'
  · exact hread t' ht'

theorem gives_elementTurns {ts : List Tree} (h : ElementAtoms line shy ts atoms) {budget : Nat}
    {e : Surroundings} {rest : List Atom} (he : e.noIn → shy)
    (hbudget : 3 * atoms.length + 3 ≤ budget) (hturns : atoms.length < e.turns) {turns : Nat}
    (hloop : atoms.length < turns) (elements : List (Option Tree)) :
    Gives e (At line (atoms ++ .sign .closeBracket :: rest))
      (repeatFrom (elementTurn (derive budget)) turns elements)
      (fun result => ∃ es, SameElements ts es ∧ result = .inl (elements.reverse ++ es))
      (At line rest) := by
  obtain ⟨turns, rfl⟩ := Nat.exists_eq_add_one.mpr (show 0 < turns by omega)
  induction h generalizing elements turns with
  | nil =>
      refine .done ?_
      refine .bind (.peek rfl) fun token htoken => ?_
      rw [if_pos (by rw [htoken.isPunctuator]; rfl)]
      refine .bind (.take rfl) fun _ _ => ?_
      exact .pure ⟨_, rfl, [], fun _ => .nil, by rw [List.append_nil]⟩
  | @hole span ts atoms _ ih =>
      rw [List.length_cons] at hbudget hturns hloop
      obtain ⟨turns, rfl⟩ := Nat.exists_eq_add_one.mpr (show 0 < turns by omega)
      refine .again (θ := (· = none :: elements)) (R := At line (atoms ++ .sign .closeBracket :: rest))
        ?_ ?_
      · refine .bind (.peek rfl) fun token htoken => ?_
        rw [if_neg (by simp [htoken.isPunctuator, Atom.sign]),
          if_pos (by rw [htoken.isPunctuator]; rfl)]
        refine .bind (.take rfl) fun _ _ => ?_
        exact .pure ⟨_, rfl, rfl⟩
      · rintro _ rfl
        refine (ih (by omega) (by omega) _ turns (by omega)).mono ?_
        rintro _ ⟨es, hes, rfl⟩
        exact ⟨none :: es, fun span' => .cons (Tree.same_node .nil) (hes span'), by simp⟩
  | @last t atoms ht =>
      refine .done (gives_element (p := .closeBracket) ht he hbudget hturns (show 0 < 2 by omega)
        elements ?_)
      intro t' after ht' hafter
      rw [if_pos (by rw [hafter.isPunctuator]; rfl)]
      exact .pure ⟨_, rfl, [some t'], fun _ => .single ht', by simp⟩
  | @cons t ts atoms tail ht _ ih =>
      rw [List.length_append, List.length_cons] at hbudget hturns hloop
      obtain ⟨turns, rfl⟩ := Nat.exists_eq_add_one.mpr (show 0 < turns by omega)
      rw [List.append_assoc, List.cons_append]
      refine .again (θ := fun state => ∃ t', t.Same t' ∧ state = some t' :: elements)
        (gives_element (p := .comma) ht he (by omega) (by omega) (show 1 < 2 by omega) elements ?_) ?_
      · intro t' after ht' hafter
        rw [if_neg (by simp [hafter.isPunctuator, Atom.sign]),
          if_pos (by rw [hafter.isPunctuator]; rfl)]
        exact .pure ⟨_, rfl, t', ht', rfl⟩
      · rintro _ ⟨t', ht', rfl⟩
        refine (ih (by omega) (by omega) _ turns (by omega)).mono ?_
        rintro _ ⟨es, hes, rfl⟩
        exact ⟨some t' :: es, fun span' => .cons ht' (hes span'), by simp⟩

theorem primary_arrayInit {ts : List Tree} (h : ElementAtoms line shy ts atoms) (span : Span) :
    Primary line (Tree.ofList .arrayInit span ts).SameBare
      (.sign .openBracket :: (atoms ++ [.sign .closeBracket])) where
  opens := rfl
  not_new := nofun
  reads := by
    intro budget e rest hbudget hturns
    simp only [List.length_append, List.length_cons, List.length_nil] at hbudget hturns
    rw [List.cons_append, List.append_assoc]
    refine .bind (.take rfl) fun token htoken => ?_
    rw [htoken.kind]
    refine .allowIn ?_
    refine .bind (.repeatTurns (gives_elementTurns (e := { e with noIn := false }) h nofun (by omega)
      (show _ < e.turns by omega) (show _ < e.turns by omega) [])) fun elements helements => ?_
    obtain ⟨es, hes, rfl⟩ := helements
    refine .bind (.spanFrom token.span) fun span' _ => ?_
    exact .pure ⟨Tree.same_ofList (hes span'), rfl⟩

/-! ### Object literals -/

inductive KeyAtom : Tree → Atom → Prop where
  | word {name : String} {span : Span} {a : Atom} :
      a.kind.propertyName? = some name → KeyAtom (.identifier name span) a
  | string {text : String} {span : Span} {a : Atom} :
      a.kind = .string text → KeyAtom (.textLeaf .string text span) a
  | number {value : Number} {span : Span} {a : Atom} :
      a.kind = .number value → KeyAtom (.number value span) a

theorem KeyAtom.kind_cases (h : KeyAtom key a) :
    (∃ name, a.kind = .identifier name) ∨ (∃ word, a.kind = .keyword word) ∨
      (∃ text, a.kind = .string text) ∨ ∃ value, a.kind = .number value := by
  cases h with
  | word hname =>
      unfold TokenKind.propertyName? at hname
      split at hname
      case h_1 name hkind => exact .inl ⟨name, hkind⟩
      case h_2 word hkind => exact .inr (.inl ⟨word, hkind⟩)
      case h_3 => cases hname
  | string hkind => exact .inr (.inr (.inl ⟨_, hkind⟩))
  | number hkind => exact .inr (.inr (.inr ⟨_, hkind⟩))

theorem KeyAtom.admits (h : KeyAtom key a) : a.admits false := by
  obtain ⟨_, hkind⟩ | ⟨_, hkind⟩ | ⟨_, hkind⟩ | ⟨_, hkind⟩ := h.kind_cases
  all_goals simp [Atom.admits, Token.dependsOnOperand, hkind]

theorem KeyAtom.kind_ne (h : KeyAtom key a) (p : Punctuator) : a.kind ≠ .punctuator p := by
  obtain ⟨_, hkind⟩ | ⟨_, hkind⟩ | ⟨_, hkind⟩ | ⟨_, hkind⟩ := h.kind_cases
  all_goals simp [hkind]

theorem gives_propertyKey (h : KeyAtom key a) {token : Token} (htoken : token.Is a)
    {e : Surroundings} {P : Stream → Prop} : Gives e P (propertyKey token) key.Same P := by
  unfold propertyKey
  rw [htoken.kind]
  cases h with
  | word hname =>
      split
      case h_1 hkind => rw [hkind] at hname; cases hname
      case h_2 hkind => rw [hkind] at hname; cases hname
      case h_3 =>
          rw [hname]
          exact .pure (Tree.same_node .nil)
  | string hkind =>
      rw [hkind]
      exact .pure (Tree.same_node .nil)
  | number hkind =>
      rw [hkind]
      exact .pure (Tree.same_node .nil)

/-- Atoms that are a property of an object literal. -/
inductive FieldAtoms (line : Nat) (shy : Bool) : Tree → List Atom → Prop where
  | field {key value : Tree} {a : Atom} {atoms : List Atom} {span : Span} :
      KeyAtom key a → Derives line shy 2 value.Same atoms →
      FieldAtoms line shy (.ofList .propertyInit span [key, value]) (a :: .sign .colon :: atoms)

/-- A property that is no accessor: a colon is no key, so the words `get` and `set` are keys
before it. -/
theorem gives_property {budget : Nat} {e : Surroundings} {rest : List Atom}
    (hkey : KeyAtom key a) (hvalue : Derives line shy 2 value.Same atoms) (he : e.noIn → shy)
    (hbudget : 3 * atoms.length + 3 ≤ budget) (hturns : atoms.length < e.turns)
    (hfollow : (Atom.first rest).follow < 2) {token : Token} (htoken : token.Is a)
    (span : Span) :
    Gives e (At line (.sign .colon :: (atoms ++ rest))) (property (derive budget) token)
      (Tree.ofList .propertyInit span [key, value]).Same (At line rest) := by
  refine .bind (.peek rfl) fun following hfollowing => ?_
  have hnone : (following.kind.propertyName?.isSome || following.kind.isLiteralKey) = false := by
    rw [hfollowing.kind]
    rfl
  rw [hnone]
  dsimp only
  split
  case h_1 heq => cases heq
  case h_2 =>
      refine .bind (gives_propertyKey hkey htoken) fun key' hkey' => ?_
      refine .bind (.expect rfl rfl) fun _ _ => ?_
      refine .bind (hvalue.assignment he hbudget hturns hfollow) fun value' hvalue' => ?_
      refine .bind (.spanFrom token.span) fun span' _ => ?_
      exact .pure (Tree.same_ofList (.cons hkey' (.single hvalue')))

theorem gives_propertyTurns {ts : List Tree} {parts : List (List Atom)}
    (ht : FieldAtoms line shy t atoms) (h : List.Forall₂ (FieldAtoms line shy) ts parts) {budget : Nat}
    {e : Surroundings} {rest : List Atom} (he : e.noIn → shy)
    (hbudget : 3 * (itemAtoms (atoms :: parts)).length + 3 ≤ budget)
    (hturns : (itemAtoms (atoms :: parts)).length < e.turns) {turns : Nat}
    (hloop : (itemAtoms (atoms :: parts)).length < turns) (properties : List Tree) :
    Gives e (At line (itemAtoms (atoms :: parts) ++ .sign .closeBrace :: rest))
      (repeatFrom (propertyTurn (derive budget)) turns properties)
      (fun result => ∃ ts', Tree.SameAll (t :: ts) ts' ∧ result = properties.reverse ++ ts')
      (At line rest) := by
  induction h generalizing t atoms properties turns with
  | nil =>
      obtain ⟨turns, rfl⟩ := Nat.exists_eq_add_one.mpr (show 0 < turns by omega)
      simp only [itemAtoms, commaAtoms, List.flatMap_nil, List.append_nil] at hbudget hturns ⊢
      obtain @⟨key, value, a, atoms, span, hkey, hvalue⟩ := ht
      simp only [List.length_cons] at hbudget hturns
      have hfollow : (Atom.first (.sign .closeBrace :: rest)).follow < 2 := show 0 < 2 by omega
      refine .done ?_
      refine .bind (.take hkey.admits) fun token htoken => ?_
      rw [if_neg (by simpa [htoken.isPunctuator] using hkey.kind_ne .closeBrace)]
      refine .bind (gives_property hkey hvalue he (by omega) (by omega) hfollow htoken span)
        fun t' ht' => ?_
      refine .bind (.take rfl) fun after hafter => ?_
      rw [if_pos (by rw [hafter.isPunctuator]; rfl)]
      exact .pure ⟨_, rfl, [t'], .single ht', List.reverse_cons⟩
  | @cons next nextAtoms ts parts hnext hts ih =>
      obtain ⟨turns, rfl⟩ := Nat.exists_eq_add_one.mpr (show 0 < turns by omega)
      have hatoms : itemAtoms (atoms :: nextAtoms :: parts) =
          atoms ++ .sign .comma :: itemAtoms (nextAtoms :: parts) := rfl
      rw [hatoms, List.length_append, List.length_cons] at hbudget hturns hloop
      rw [hatoms, List.append_assoc, List.cons_append]
      refine .again (θ := fun state => ∃ t', t.Same t' ∧ state = t' :: properties)
        (R := At line (itemAtoms (nextAtoms :: parts) ++ .sign .closeBrace :: rest)) ?_ ?_
      · obtain @⟨key, value, a, atoms, span, hkey, hvalue⟩ := ht
        simp only [List.length_cons] at hbudget hturns
        have hfollow : (Atom.first (.sign .comma :: (itemAtoms (nextAtoms :: parts) ++
          .sign .closeBrace :: rest))).follow < 2 := show 1 < 2 by omega
        refine .bind (.take hkey.admits) fun token htoken => ?_
        rw [if_neg (by simpa [htoken.isPunctuator] using hkey.kind_ne .closeBrace)]
        refine .bind (gives_property hkey hvalue he (by omega) (by omega) hfollow htoken span)
          fun t' ht' => ?_
        refine .bind (.take rfl) fun after hafter => ?_
        rw [if_neg (by simp [hafter.isPunctuator, Atom.sign]),
          if_pos (by rw [hafter.isPunctuator]; rfl)]
        exact .pure ⟨_, rfl, t', ht', rfl⟩
      · rintro _ ⟨t', ht', rfl⟩
        refine (ih hnext (by omega) (by omega) (by omega) _).mono ?_
        rintro _ ⟨ts', hts', rfl⟩
        exact ⟨t' :: ts', .cons ht' hts', by simp⟩

theorem primary_objectInit {ts : List Tree} {parts : List (List Atom)}
    (h : List.Forall₂ (FieldAtoms line shy) ts parts) (span : Span) :
    Primary line (Tree.ofList .objectInit span ts).SameBare
      (.sign .openBrace :: (itemAtoms parts ++ [.sign .closeBrace])) where
  opens := rfl
  not_new := nofun
  reads := by
    intro budget e rest hbudget hturns
    simp only [List.length_append, List.length_cons, List.length_nil] at hbudget hturns
    rw [List.cons_append, List.append_assoc]
    have hloop : Gives { e with noIn := false } (At line (itemAtoms parts ++ .sign .closeBrace :: rest))
        (repeatFrom (propertyTurn (derive budget)) e.turns []) (Tree.SameAll ts) (At line rest) := by
      cases h with
      | nil =>
          obtain ⟨turns, hturns'⟩ := Nat.exists_eq_add_one.mpr (show 0 < e.turns by omega)
          rw [hturns']
          refine .done ?_
          refine .bind (.take rfl) fun token htoken => ?_
          rw [if_pos (by rw [htoken.isPunctuator]; rfl)]
          exact .pure ⟨[], rfl, .nil⟩
      | cons ht hts =>
          refine (gives_propertyTurns (e := { e with noIn := false }) ht hts nofun (by omega)
            (show _ < e.turns by omega) (by omega) []).mono ?_
          rintro _ ⟨ts', hts', rfl⟩
          exact hts'
    refine .bind (.take rfl) fun token htoken => ?_
    rw [htoken.kind]
    refine .allowIn ?_
    refine .bind (.repeatTurns hloop) fun properties hproperties => ?_
    refine .bind (.spanFrom token.span) fun span' _ => ?_
    exact .pure ⟨Tree.same_ofList hproperties, rfl⟩

end Grammar

end ScriptMin
