import ScriptMin.Grammar.Parse

/-!
What productions ensure. A property of the trees that a production gives is followed through the
grammar: one rule for each way to put productions together, and one for the budget of the whole.
-/

namespace ScriptMin.Grammar

variable {α β σ : Type} {e : Surroundings}

/-! ### What productions ensure -/

/-- Whatever a production gives has a property. -/
def Ensures (e : Surroundings) (p : Production α) (Q : α → Prop) : Prop :=
  ∀ s a s', p e s = .ok (a, s') → Q a

/-- A turn of a loop keeps what holds of the state, and the last one gives a result with a
property. -/
def Turn.Keeps (I : σ → Prop) (Q : α → Prop) : Turn σ α → Prop
  | .again state => I state
  | .done result => Q result

namespace Ensures

variable {p : Production α} {f : α → Production β} {Q Q' : α → Prop} {R : β → Prop}

theorem bind (h : Ensures e p Q) (hf : ∀ a, Q a → Ensures e (f a) R) : Ensures e (p >>= f) R := by
  intro s b s' hrun
  change (p e s >>= fun x => f x.1 e x.2) = _ at hrun
  cases hp : p e s with
  | error fault =>
      rw [hp] at hrun
      cases hrun
  | ok result =>
      rw [hp] at hrun
      exact hf result.1 (h s result.1 result.2 hp) result.2 b s' hrun

/-- What a production gives need not matter for what follows. -/
theorem next (hf : ∀ a, Ensures e (f a) R) : Ensures e (p >>= f) R :=
  bind (Q := fun _ => True) (fun _ _ _ _ => trivial) fun a _ => hf a

theorem pure {a : α} (h : Q a) : Ensures e (pure a : Production α) Q := by
  rintro s _ _ ⟨⟩
  exact h

theorem reject (cause : GrammarCause) (line : Nat) : Ensures e (reject cause line) Q := nofun

theorem unexpected (wanted : Wanted) (got : Token) : Ensures e (unexpected wanted got) Q := nofun

theorem pure_bind {a : α} (h : Ensures e (f a) R) : Ensures e (Pure.pure a >>= f) R := h

theorem map {g : α → β} (h : Ensures e p Q) (hg : ∀ a, Q a → R (g a)) : Ensures e (g <$> p) R :=
  bind h fun a ha => pure (hg a ha)

theorem optional (h : Ensures e p Q) : Ensures e (some <$> p) fun result => ∀ a ∈ result, Q a :=
  map h (by rintro a ha _ ⟨⟩; exact ha)

theorem reject_bind {cause : GrammarCause} {line : Nat} :
    Ensures e (Grammar.reject cause line >>= f) R :=
  bind (reject (Q := fun _ => False) cause line) fun _ => False.elim

theorem unexpected_bind {wanted : Wanted} {got : Token} :
    Ensures e (Grammar.unexpected wanted got >>= f) R :=
  bind (unexpected (Q := fun _ => False) wanted got) fun _ => False.elim

theorem mono (h : Ensures e p Q) (hQ : ∀ a, Q a → Q' a) : Ensures e p Q' :=
  fun s a s' hrun => hQ a (h s a s' hrun)

theorem withReader {g : Surroundings → Surroundings} (h : Ensures (g e) p Q) :
    Ensures e (withReader g p) Q := h

theorem read_bind {f : Surroundings → Production β} (h : Ensures e (f e) R) :
    Ensures e (read >>= f) R := h

theorem ite {c : Prop} [Decidable c] {p q : Production α} (hp : c → Ensures e p Q)
    (hq : ¬ c → Ensures e q Q) : Ensures e (if c then p else q) Q := by
  split
  · exact hp ‹_›
  · exact hq ‹_›

/-- What follows a choice follows both of its branches. -/
theorem ite_bind {c : Prop} [Decidable c] {p q : Production α} (hp : c → Ensures e p Q)
    (hq : ¬ c → Ensures e q Q) (hf : ∀ a, Q a → Ensures e (f a) R) :
    Ensures e (if c then p >>= f else q >>= f) R :=
  ite (fun hc => bind (hp hc) hf) fun hc => bind (hq hc) hf

/-- A loop ensures what its last turn does, if every turn keeps what holds of the state. -/
theorem loop {state : σ} {turn : σ → Production (Turn σ α)} {I : σ → Prop}
    (hstate : I state)
    (hturn : ∀ state, I state → Ensures e (turn state) (Turn.Keeps I Q)) :
    Ensures e (repeatTurns state turn) Q := by
  have hloop : ∀ n state, I state → Ensures e (repeatFrom turn n state) Q := by
    intro n
    induction n with
    | zero => exact fun state _ => next fun s => reject _ _
    | succ n ih =>
        intro state hstate
        refine bind (hturn state hstate) fun result hresult => ?_
        cases result with
        | again next => exact ih next hresult
        | done result => exact pure hresult
  exact hloop e.turns state hstate

end Ensures

/-- Whatever the budget, what a production ensures holds of a text that is accepted. -/
theorem ensures_run {p : Self → Production Tree} {Q : Tree → Prop} {line : Nat} {source : String}
    {t : Tree} (hp : ∀ budget e, e.frames = [] → e.inFunction = false →
      Ensures e (p (derive budget)) Q) (h : run p line source = .ok t) : Q t := by
  rw [run] at h
  cases hrun : outcome p line source with
  | error fault =>
      rw [hrun] at h
      cases h
  | ok result =>
      rw [hrun] at h
      obtain rfl : result.1 = t := Except.ok.inj h
      exact hp _ _ rfl rfl _ _ _ hrun

/-! ### Operators -/

section Operators

variable {kind : TokenKind} {level : Nat} {op : Kind}

theorem isBinary_of_binaryOperator? (h : binaryOperator? kind = some (level, op)) :
    op.isBinary := by
  rw [binaryOperator?.eq_def] at h
  split at h
  · split at h
    all_goals
      cases h
      try rfl
  all_goals
    cases h
    try rfl

theorem isUnary_of_unaryOperator? (h : unaryOperator? kind = some op) : op.isUnary := by
  rw [unaryOperator?.eq_def] at h
  split at h
  all_goals
    cases h
    try rfl

theorem eq_of_updateOperator? (h : updateOperator? kind = some op) :
    op = .increment ∨ op = .decrement := by
  rw [updateOperator?.eq_def] at h
  split at h
  · exact .inl (Option.some.inj h).symm
  · exact .inr (Option.some.inj h).symm
  · cases h

end Operators

/-! ### Parts of a node -/

theorem forall_mem_pair {P : Tree → Prop} {a b : Tree} : (∀ t ∈ [a, b], P t) ↔ P a ∧ P b := by
  rw [List.forall_mem_cons, List.forall_mem_singleton]

theorem head_withRole {role : Role} {t : Tree} :
    (t.withRole role).head = { t.head with role := some role } := by
  cases t
  rfl

theorem forall_mem_part {P : Tree → Prop} {role : Role} {part : Option Tree}
    (h : ∀ t ∈ part, P (t.withRole role)) : ∀ c ∈ Tree.part role part, P c := by
  intro c hc
  rw [Tree.part, Option.mem_toList, Option.map_eq_some_iff] at hc
  obtain ⟨t, ht, rfl⟩ := hc
  exact h t ht

theorem forall_mem_reverse {P : Tree → Prop} {ts : List Tree} (h : ∀ t ∈ ts, P t) :
    ∀ t ∈ ts.reverse, P t :=
  fun t ht => h t (List.mem_reverse.mp ht)

/-! ### Lists with gaps -/

variable {P : Tree → Prop} {elements : List (Option Tree)}

theorem forall_some_mem_reverse (h : ∀ t, some t ∈ elements → P t) :
    ∀ t, some t ∈ elements.reverse → P t :=
  fun t ht => h t (List.mem_reverse.mp ht)

theorem forall_some_mem_cons {element : Option Tree} (h : ∀ t ∈ element, P t)
    (helements : ∀ t, some t ∈ elements → P t) : ∀ t, some t ∈ element :: elements → P t := by
  intro t ht
  rcases List.mem_cons.mp ht with heq | ht
  · exact h t heq.symm
  · exact helements t ht

end ScriptMin.Grammar
