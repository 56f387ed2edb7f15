import ScriptMin.Proofs.Grammar.Giving
import ScriptMin.Proofs.Tree.Ordinary

/-!
The ladder of expressions. A production of some level reads an expression of that level off
the text if what follows does not go on with it. Every production passes an expression of a
tighter level through unchanged, so an expression is read at all levels up to its own.
-/

namespace ScriptMin

open ScriptMin.Grammar ScriptMin.Stream

/-- Two trees are the same up to spans and marked parentheses. -/
def Tree.Same (t t' : Tree) : Prop := t'.plain = t.plain

theorem Tree.Same.kind {t t' : Tree} (h : t.Same t') : t'.kind = t.kind := by
  have hkind : ∀ t : Tree, t.plain.kind = t.kind := by
    rintro ⟨head, children⟩
    rw [plain_node]
    rfl
  rw [← hkind t', h, hkind t]

/-- Two trees are the same up to spans and marked parentheses, and the second one is not marked. -/
def Tree.SameBare (t t' : Tree) : Prop := t.Same t' ∧ t'.flags.parenthesized = false

namespace Atom

def opens (a : Atom) : Bool :=
  match a.kind with
  | .identifier _ | .number _ | .string _ => true
  | .keyword word =>
    (word matches .kwThis | .kwTrue | .kwFalse | .kwNull | .kwNew | .kwTypeof | .kwVoid
      | .kwDelete)
  | .punctuator sign =>
    (sign matches .openParen | .openBracket | .openBrace | .bang | .tilde | .plus | .minus
      | .plusPlus | .minusMinus)
  | _ => false

def opensMember (a : Atom) : Bool :=
  a.opens && (unaryOperator? a.kind).isNone && (updateOperator? a.kind).isNone

/-- The tightest level at which an atom goes on with the expression before it, zero if it
does not. -/
def follow (a : Atom) : Nat :=
  match binaryOperator? a.kind with
  | some (level, _) => level + 4
  | none =>
    match a.kind with
    | .punctuator .comma => 1
    | .punctuator .assign => 2
    | .punctuator .question => 3
    | .punctuator .plusPlus | .punctuator .minusMinus => 15
    | .punctuator .dot | .punctuator .openBracket | .punctuator .openParen => 17
    | .regExp _ => 18
    | _ => 0

variable {a : Atom}

theorem opens_of_opensMember (h : a.opensMember) : a.opens := by
  simp only [opensMember, Bool.and_eq_true] at h
  exact h.1.1

theorem admits_of_opens (h : a.opens) (operand : Bool) : a.admits operand := by
  obtain ⟨kind, op⟩ := a
  cases kind with
  | punctuator sign => cases sign <;> cases h <;> rfl
  | regExp source => cases h
  | _ => rfl

theorem ne_nil_of_opens {atoms : List Atom} (h : (first atoms).opens) : atoms ≠ [] := by
  rintro rfl
  cases h

theorem kind_ne_of_opens (h : a.opens) {kind : TokenKind} (hkind : opens ⟨kind, none⟩ = false) :
    a.kind ≠ kind := by
  rintro rfl
  exact absurd h (by simp [show a.opens = false from hkind])

theorem follow_of_kind {kind : TokenKind} (h : a.kind = kind) : a.follow = follow ⟨kind, none⟩ := by
  simp only [follow, h]

theorem follow_binary {level : Nat} {op : Kind} (h : binaryOperator? a.kind = some (level, op)) :
    a.follow = level + 4 := by
  simp only [follow, h]

theorem follow_update {op : Kind} (h : updateOperator? a.kind = some op) : a.follow = 15 := by
  unfold updateOperator? at h
  split at h
  case h_1 hkind => rw [follow_of_kind hkind]; rfl
  case h_2 hkind => rw [follow_of_kind hkind]; rfl
  case h_3 => cases h

theorem admits_of_follow (h : a.follow ≤ 17) : a.admits false := by
  cases hadmits : a.admits false with
  | true => rfl
  | false =>
      simp only [admits, Token.dependsOnOperand, Bool.false_and, Bool.not_false] at hadmits
      split at hadmits
      all_goals simp_all
      rename_i source hkind
      have hfollow := follow_of_kind hkind
      have : follow ⟨.regExp source, none⟩ = 18 := rfl
      omega

theorem kind_ne_of_follow {bound : Nat} (h : a.follow < bound) {kind : TokenKind}
    (hkind : bound ≤ follow ⟨kind, none⟩) : a.kind ≠ kind := by
  intro heq
  rw [follow_of_kind heq] at h
  omega

theorem first_append {atoms : List Atom} (h : atoms ≠ []) (rest : List Atom) :
    first (atoms ++ rest) = first atoms := by
  obtain ⟨a, atoms, rfl⟩ := List.exists_cons_of_ne_nil h
  rfl

end Atom

namespace Grammar

def ladder (self : Self) (level : Nat) : Production Tree :=
  if level ≤ 1 then expression self
  else if level = 2 then assignment self
  else if level = 3 then conditional self
  else if level ≤ 13 then binary self (14 - level)
  else if level = 14 then unary self
  else member self true

/-- How often a production can ask for another one before it reads a token. -/
def slack (level : Nat) : Nat :=
  if level ≤ 1 then 3 else if level ≤ 13 then 2 else if level = 14 then 1 else 0

/-- The production of a level reads the given atoms as a tree in `φ`, whatever follows that does
not go on with it. If the atoms are shy of `in`, they can also be read where `in` would end an
expression. -/
def ReadsAt (line : Nat) (shy : Bool) (level : Nat) (φ : Tree → Prop) (atoms : List Atom) : Prop :=
  ∀ (budget : Nat) (e : Surroundings) (rest : List Atom), (e.noIn → shy) →
    3 * atoms.length + slack level ≤ budget → atoms.length < e.turns →
    (Atom.first rest).follow < level →
    Gives e (At line (atoms ++ rest)) (ladder (derive budget) level) φ (At line rest)

/-- Atoms that can stand where an expression of some level is wanted, and are read as a tree in
`φ` there. -/
structure Derives (line : Nat) (shy : Bool) (level : Nat) (φ : Tree → Prop) (atoms : List Atom) :
    Prop where
  opens : (Atom.first atoms).opens
  opensMember : 15 ≤ level → (Atom.first atoms).opensMember
  reads : ReadsAt line shy level φ atoms

variable {line : Nat} {shy : Bool} {φ : Tree → Prop} {atoms : List Atom}

theorem Derives.ne_nil {level : Nat} (h : Derives line shy level φ atoms) : atoms ≠ [] :=
  Atom.ne_nil_of_opens h.opens

theorem Derives.first_append {level : Nat} (h : Derives line shy level φ atoms) (rest : List Atom) :
    Atom.first (atoms ++ rest) = Atom.first atoms :=
  Atom.first_append h.ne_nil rest

theorem Derives.admits {level : Nat} (h : Derives line shy level φ atoms) (rest : List Atom)
    {operand : Bool} : (Atom.first (atoms ++ rest)).admits operand :=
  h.first_append rest ▸ Atom.admits_of_opens h.opens operand

/-! ### Passing tighter expressions through -/

theorem Derives.member_lower {level : Nat} (h : Derives line shy (level + 1) φ atoms)
    (hlevel : 15 ≤ level) : ReadsAt line shy level φ atoms := by
  intro budget e rest he hbudget hturns hfollow
  have hslack : slack (level + 1) = slack level := by
    simp only [slack]
    rw [if_neg (by omega), if_neg (by omega), if_neg (by omega), if_neg (by omega),
      if_neg (by omega), if_neg (by omega)]
  have hladder : ladder (derive budget) (level + 1) = ladder (derive budget) level := by
    simp only [ladder]
    rw [if_neg (by omega), if_neg (by omega), if_neg (by omega), if_neg (by omega),
      if_neg (by omega), if_neg (by omega), if_neg (by omega), if_neg (by omega),
      if_neg (by omega), if_neg (by omega)]
  rw [← hladder]
  exact h.reads budget e rest he (by omega) hturns (by omega)

theorem updateOperator?_of_follow {a : Atom} (h : a.follow < 15) : updateOperator? a.kind = none := by
  cases hop : updateOperator? a.kind with
  | none => rfl
  | some op =>
      have hfollow := Atom.follow_update hop
      omega

/-- What follows a member access is no increment. -/
theorem Derives.unary_lower (h : Derives line shy 15 φ atoms) : ReadsAt line shy 14 φ atoms := by
  intro budget e rest he hbudget hturns hfollow
  have hslack : slack 14 = 1 := rfl
  have hslack' : slack 15 = 0 := rfl
  obtain ⟨budget, rfl⟩ := Nat.exists_eq_add_one.mpr (show 0 < budget by omega)
  have hopens := h.opensMember (Nat.le_refl 15)
  simp only [Atom.opensMember, Bool.and_eq_true, Option.isNone_iff_eq_none] at hopens
  obtain ⟨⟨-, hunary⟩, hupdate⟩ := hopens
  have hmember := h.reads budget e rest he (by omega) hturns (by omega)
  show Gives e _ (unary (derive (budget + 1))) _ _
  unfold unary
  refine .bind (.next (h.admits rest)) fun token htoken => ?_
  rw [htoken.kind, h.first_append, hunary, hupdate]
  refine .bind .unread fun _ _ => ?_
  refine .bind hmember fun operand hoperand => ?_
  refine .bind (.peekOnLine (Atom.admits_of_follow (by omega))) fun following hfollowing => ?_
  rw [hfollowing.kind, updateOperator?_of_follow (by omega)]
  exact .pure hoperand

/-- A looser operator, or none, ends the loop of a binary level. -/
theorem binaryTurn_done {operand : Production Tree} {n : Nat} {start : Span} {left : Tree}
    {e : Surroundings} {rest : List Atom} (h : (Atom.first rest).follow + n < 13)
    (hleft : φ left) :
    Gives e (At line rest) (binaryTurn operand n start left) (fun r => ∃ a, r = .done a ∧ φ a)
      (At line rest) := by
  refine .bind (.peek (Atom.admits_of_follow (by omega))) fun token htoken => ?_
  rw [htoken.kind]
  cases hop : binaryOperator? (Atom.first rest).kind with
  | none => exact .pure ⟨left, rfl, hleft⟩
  | some found =>
      obtain ⟨level, op⟩ := found
      have hlevel := Atom.follow_binary hop
      have hne : ¬ level + n + 1 = binaryLevels := by
        simp only [binaryLevels]
        omega
      refine .bind .read fun _ _ => ?_
      rw [if_neg fun h => hne h.1]
      exact .pure ⟨left, rfl, hleft⟩

theorem ladder_binary (self : Self) {n : Nat} (hn : n < binaryLevels) :
    ladder self (13 - n) = binary self (n + 1) := by
  simp only [binaryLevels] at hn
  rw [ladder, if_neg (by omega), if_neg (by omega), if_neg (by omega), if_pos (by omega)]
  congr 1
  omega

theorem slack_binary {n : Nat} (hn : n < binaryLevels) : slack (13 - n) = 2 := by
  simp only [binaryLevels] at hn
  rw [slack, if_neg (by omega), if_pos (by omega)]

/-- The operand of the loop of a binary level. -/
theorem ReadsAt.operand {n : Nat} (hn : n < binaryLevels) (h : ReadsAt line shy (14 - n) φ atoms)
    {budget : Nat} {e : Surroundings} {rest : List Atom} (he : e.noIn → shy)
    (hbudget : 3 * atoms.length + 2 ≤ budget) (hturns : atoms.length < e.turns)
    (hfollow : (Atom.first rest).follow < 14 - n) :
    Gives e (At line (atoms ++ rest)) (binary (derive budget) n) φ (At line rest) := by
  cases n with
  | zero =>
      have hslack : slack 14 = 1 := rfl
      obtain ⟨budget, rfl⟩ := Nat.exists_eq_add_one.mpr (show 0 < budget by omega)
      exact h budget e rest he (by rw [Nat.sub_zero]; omega) hturns hfollow
  | succ n =>
      have hn' : n < binaryLevels := by omega
      have hlevel : 14 - (n + 1) = 13 - n := by omega
      rw [hlevel] at h hfollow
      have hreads := h budget e rest he (by rw [slack_binary hn']; omega) hturns hfollow
      rwa [ladder_binary _ hn'] at hreads

/-- Levels of binary operators pass tighter expressions through. -/
theorem Derives.binary_lower {n : Nat} (hn : n < binaryLevels) (h : Derives line shy (14 - n) φ atoms) :
    ReadsAt line shy (13 - n) φ atoms := by
  intro budget e rest he hbudget hturns hfollow
  rw [slack_binary hn] at hbudget
  have hfirst := h.reads.operand hn he hbudget hturns
    (show (Atom.first rest).follow < 14 - n by omega)
  obtain ⟨turns, hturns'⟩ := Nat.exists_eq_add_one.mpr (show 0 < e.turns by omega)
  rw [ladder_binary _ hn]
  refine .bind (.peek (h.admits rest)) fun token htoken => ?_
  refine .bind hfirst fun left hleft => ?_
  refine .repeatTurns ?_
  rw [hturns']
  exact .done (binaryTurn_done (by omega) hleft)

theorem Derives.conditional_lower (h : Derives line shy 4 φ atoms) : ReadsAt line shy 3 φ atoms := by
  intro budget e rest he hbudget hturns hfollow
  have hcondition := h.reads budget e rest he hbudget hturns (by omega)
  have hquestion := Atom.kind_ne_of_follow hfollow
    (show 3 ≤ Atom.follow ⟨.punctuator .question, none⟩ by decide)
  show Gives e _ (conditional (derive budget)) _ _
  refine .bind (.peek (h.admits rest)) fun token htoken => ?_
  refine .bind hcondition fun condition hcondition => ?_
  refine .bind (.not_accept hquestion (Atom.admits_of_follow (by omega))) fun found hfound => ?_
  subst hfound
  exact .pure hcondition

theorem Derives.isKeyword_yield {level : Nat} (h : Derives line shy level φ atoms) {rest : List Atom}
    {token : Token} (htoken : token.Is (Atom.first (atoms ++ rest))) :
    ¬ token.isKeyword .kwYield := by
  rw [h.first_append rest] at htoken
  simpa [htoken.isKeyword] using Atom.kind_ne_of_opens h.opens rfl

theorem Derives.assignment_lower (h : Derives line shy 3 φ atoms) : ReadsAt line shy 2 φ atoms := by
  intro budget e rest he hbudget hturns hfollow
  have htarget := h.reads budget e rest he hbudget hturns (by omega)
  have hassign := Atom.kind_ne_of_follow hfollow
    (show 2 ≤ Atom.follow ⟨.punctuator .assign, none⟩ by decide)
  show Gives e _ (assignment (derive budget)) _ _
  refine .bind (.peek (h.admits rest)) fun token htoken => ?_
  rw [if_neg (h.isKeyword_yield htoken)]
  refine .bind htarget fun target htarget => ?_
  refine .bind (.peek (Atom.admits_of_follow (by omega))) fun sign hsign => ?_
  rw [if_neg (by simpa [hsign.isPunctuator] using hassign)]
  exact .pure htarget

theorem Derives.expression_lower (h : Derives line shy 2 φ atoms) : ReadsAt line shy 1 φ atoms := by
  intro budget e rest he hbudget hturns hfollow
  have hslack : slack 1 = 3 := rfl
  have hslack' : slack 2 = 2 := rfl
  obtain ⟨budget, rfl⟩ := Nat.exists_eq_add_one.mpr (show 0 < budget by omega)
  have hpart := h.reads budget e rest he (by omega) hturns (by omega)
  have hcomma := Atom.kind_ne_of_follow hfollow
    (show 1 ≤ Atom.follow ⟨.punctuator .comma, none⟩ by decide)
  show Gives e _ (expression (derive (budget + 1))) _ _
  refine .bind (.peek (h.admits rest)) fun token htoken => ?_
  refine .bind hpart fun first hfirst => ?_
  refine .bind (.peek (Atom.admits_of_follow (by omega))) fun sign hsign => ?_
  rw [if_neg (by simpa [hsign.isPunctuator] using hcomma)]
  exact .pure hfirst

/-- Every level passes expressions of the next one through. -/
theorem Derives.lower_succ {level : Nat} (h : Derives line shy (level + 1) φ atoms)
    (hlevel : 1 ≤ level) : Derives line shy level φ atoms where
  opens := h.opens
  opensMember hmember := h.opensMember (by omega)
  reads := by
    by_cases hmember : 15 ≤ level
    · exact h.member_lower hmember
    · by_cases hunary : level = 14
      · subst hunary
        exact h.unary_lower
      · by_cases hbinary : 4 ≤ level
        · have hn : 13 - level < binaryLevels := by
            simp only [binaryLevels]
            omega
          have heq : 13 - (13 - level) = level := by omega
          have heq' : 14 - (13 - level) = level + 1 := by omega
          rw [← heq'] at h
          have hreads := h.binary_lower hn
          rwa [heq] at hreads
        · obtain rfl | rfl | rfl : level = 3 ∨ level = 2 ∨ level = 1 := by omega
          · exact h.conditional_lower
          · exact h.assignment_lower
          · exact h.expression_lower

/-- An expression can stand where a looser one is wanted. -/
theorem Derives.lower {level looser : Nat} (h : Derives line shy level φ atoms) (hle : looser ≤ level)
    (hlooser : 1 ≤ looser) : Derives line shy looser φ atoms := by
  induction hle with
  | refl => exact h
  | @step level hle ih => exact ih (h.lower_succ (Nat.le_trans hlooser hle))

end Grammar

end ScriptMin
