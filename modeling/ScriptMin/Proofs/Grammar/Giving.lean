import ScriptMin.Grammar.Parse
import ScriptMin.Proofs.Token.Lookahead

/-!
Runs of productions. A production gives a result from every stream in a class of streams, and
leaves a stream of another class: success is part of the statement. Every way to build a
production has a rule, and the rules for reading tokens speak of the atoms before which the
stream stands.
-/

namespace ScriptMin.Grammar

open ScriptMin.Stream

/-- From every stream in `P` the production succeeds, with a result in `φ` and a stream
in `R`. -/
def Gives {α : Type} (e : Surroundings) (P : Stream → Prop) (p : Production α) (φ : α → Prop)
    (R : Stream → Prop) : Prop :=
  ∀ s, P s → ∃ a s', p e s = .ok (a, s') ∧ φ a ∧ R s'

namespace Gives

variable {α β σ : Type} {e : Surroundings} {P R S : Stream → Prop} {φ : α → Prop} {ψ : β → Prop}

theorem pure {a : α} (h : φ a) : Gives e P (pure a) φ P := fun s hs => ⟨a, s, rfl, h, hs⟩

theorem bind {p : Production α} {f : α → Production β} (h : Gives e P p φ R)
    (h' : ∀ a, φ a → Gives e R (f a) ψ S) : Gives e P (p >>= f) ψ S := by
  intro s hs
  obtain ⟨a, s', hp, ha, hs'⟩ := h s hs
  obtain ⟨b, s'', hf, hb, hs''⟩ := h' a ha s' hs'
  refine ⟨b, s'', ?_, hb, hs''⟩
  show (p e s >>= fun x => f x.1 e x.2) = _
  rw [hp]
  exact hf

theorem mono {p : Production α} {φ' : α → Prop} (h : Gives e P p φ R)
    (hφ : ∀ a, φ a → φ' a) : Gives e P p φ' R := by
  intro s hs
  obtain ⟨a, s', hp, ha, hs'⟩ := h s hs
  exact ⟨a, s', hp, hφ a ha, hs'⟩

/-- What follows a choice follows both of its branches. -/
theorem ite_bind {c : Prop} [Decidable c] {p q : Production α} {f : α → Production β}
    (h : Gives e P (if c then p else q) φ R) (h' : ∀ a, φ a → Gives e R (f a) ψ S) :
    Gives e P (if c then p >>= f else q >>= f) ψ S := by
  by_cases hc : c
  · rw [if_pos hc] at h ⊢
    exact bind h h'
  · rw [if_neg hc] at h ⊢
    exact bind h h'

theorem withReader {p : Production α} {f : Surroundings → Surroundings}
    (h : Gives (f e) P p φ R) : Gives e P (withReader f p) φ R :=
  h

theorem read : Gives e P (read : Production Surroundings) (· = e) P :=
  fun s hs => ⟨e, s, rfl, rfl, hs⟩

theorem allowIn {p : Production α} (h : Gives { e with noIn := false } P p φ R) :
    Gives e P (allowIn p) φ R :=
  h

theorem spanFrom (start : Span) : Gives e P (spanFrom start) (fun _ => True) P :=
  fun s hs => ⟨start.cover s.token.span, s, rfl, trivial, hs⟩

theorem hoisted {line : Nat} {atoms : List Atom} :
    Gives e (At line atoms) (Stream.hoisted : Production Hoisted) (fun _ => True)
      (At line atoms) :=
  fun s hs => ⟨_, s.rewind _, rfl, trivial, hs.rewind _⟩

/-! ### Repeating -/

theorem repeatTurns {state : σ} {turn : σ → Production (Turn σ α)}
    (h : Gives e P (repeatFrom turn e.turns state) φ R) :
    Gives e P (repeatTurns state turn) φ R :=
  h

theorem again {state : σ} {turn : σ → Production (Turn σ α)} {n : Nat} {θ : σ → Prop}
    (h : Gives e P (turn state) (fun r => ∃ next, r = .again next ∧ θ next) R)
    (h' : ∀ next, θ next → Gives e R (repeatFrom turn n next) φ S) :
    Gives e P (repeatFrom turn (n + 1) state) φ S := by
  refine bind h ?_
  rintro r ⟨next, rfl, hnext⟩
  exact h' next hnext

theorem done {state : σ} {turn : σ → Production (Turn σ α)} {n : Nat}
    (h : Gives e P (turn state) (fun r => ∃ a, r = .done a ∧ φ a) R) :
    Gives e P (repeatFrom turn (n + 1) state) φ R := by
  refine bind h ?_
  rintro r ⟨a, rfl, ha⟩
  exact pure ha

/-! ### Reading tokens -/

variable {line : Nat} {atoms : List Atom} {operand : Bool}

theorem next (h : (Atom.first atoms).admits operand) :
    Gives e (At line atoms) (next operand) (·.Is (Atom.first atoms)) (Behind line atoms) := by
  intro s hs
  obtain ⟨s', hnext, hbehind⟩ := next_run hs h
  exact ⟨s'.token, s', hnext, hbehind.token, hbehind⟩

theorem unread : Gives e (Behind line atoms) unread (fun _ => True) (At line atoms) :=
  fun s hs => ⟨(), s.giveBack, rfl, trivial, hs.giveBack⟩

/-- Reads a token that is not given back. -/
theorem take {a : Atom} (h : a.admits operand) :
    Gives e (At line (a :: atoms)) (Grammar.next operand) (·.Is a) (At line atoms) := by
  intro s hs
  obtain ⟨token, s', hrun, htoken, hs'⟩ :=
    next (show (Atom.first (a :: atoms)).admits operand from h) s hs
  exact ⟨token, s', hrun, htoken, hs'.tail⟩

theorem peek (h : (Atom.first atoms).admits operand) :
    Gives e (At line atoms) (peek operand) (·.Is (Atom.first atoms)) (At line atoms) := by
  intro s hs
  obtain ⟨token, s', hrun, htoken, -, hs'⟩ := peek_run hs h
  exact ⟨token, s', hrun, htoken, hs'⟩

/-- Looks at a token before the one that was read last is given back. -/
theorem peek_behind (h : (Atom.first atoms.tail).admits operand) :
    Gives e (Behind line atoms) (Grammar.peek operand) (·.Is (Atom.first atoms.tail))
      (Behind line atoms) :=
  fun _ hs => peek_behind_run hs h

theorem peekOnLine (h : (Atom.first atoms).admits operand) :
    Gives e (At line atoms) (peekOnLine operand) (·.Is (Atom.first atoms)) (At line atoms) :=
  fun _ hs => peekOnLine_run hs h

theorem accept {p : Punctuator} {a : Atom} (h : a.kind = .punctuator p) (hadmits : a.admits false) :
    Gives e (At line (a :: atoms)) (accept p) (· = true) (At line atoms) := by
  intro s hs
  obtain ⟨s', hrun, hs'⟩ := nextIf_run hs hadmits true
    fun t ht => show t.isPunctuator p = true by simp [ht.isPunctuator, h]
  exact ⟨true, s', hrun, rfl, hs'⟩

theorem not_accept {p : Punctuator} (h : (Atom.first atoms).kind ≠ .punctuator p)
    (hadmits : (Atom.first atoms).admits false) :
    Gives e (At line atoms) (Grammar.accept p) (· = false) (At line atoms) := by
  intro s hs
  obtain ⟨s', hrun, hs'⟩ := nextIf_run hs hadmits false
    fun t ht => show t.isPunctuator p = false by simp [ht.isPunctuator, h]
  exact ⟨false, s', hrun, rfl, hs'⟩

theorem expect {p : Punctuator} {a : Atom} (h : a.kind = .punctuator p) (hadmits : a.admits false) :
    Gives e (At line (a :: atoms)) (expect p) (fun _ => True) (At line atoms) := by
  refine bind (take hadmits) fun token htoken => ?_
  rw [if_pos (by simp [htoken.isPunctuator, h])]
  exact pure trivial

end Gives

end ScriptMin.Grammar
