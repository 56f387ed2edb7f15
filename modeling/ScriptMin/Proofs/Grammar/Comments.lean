import Mathlib.Data.List.ReduceOption
import ScriptMin.Proofs.Grammar.Ensuring
import ScriptMin.Proofs.Token.Rewinding

/-!
Comments in syntax trees. A statement takes the comments that wait when its first token has been
looked at, and a script those behind its last statement. Main statement: in the tree of a script
every comment of the text stands exactly once.
-/

namespace ScriptMin

/-! ### Comments of a tree -/

namespace Tree

mutual
def comments : Tree → List Comment
  | node head children => head.comments ++ commentsList children

def commentsList : List Tree → List Comment
  | [] => []
  | t :: rest => comments t ++ commentsList rest
end

def extents (t : Tree) : Multiset Comment.Extent := ↑(t.comments.map Comment.extent)

/-- What the comments of several trees say and where they stand. -/
def extentsOf (ts : List Tree) : Multiset Comment.Extent :=
  ↑((commentsList ts).map Comment.extent)

variable {t : Tree} {ts : List Tree}

@[simp] theorem extentsOf_nil : extentsOf [] = 0 := rfl

@[simp] theorem extentsOf_cons : extentsOf (t :: ts) = t.extents + extentsOf ts := by
  rw [extentsOf, commentsList, List.map_append, ← Multiset.coe_add]
  rfl

theorem extents_node {head : Head} :
    (node head ts).extents = ↑(head.comments.map Comment.extent) + extentsOf ts := by
  rw [extents, comments, List.map_append, ← Multiset.coe_add]
  rfl

@[simp] theorem extentsOf_append {ts' : List Tree} :
    extentsOf (ts ++ ts') = extentsOf ts + extentsOf ts' := by
  induction ts with
  | nil => exact (zero_add _).symm
  | cons t ts ih => rw [List.cons_append, extentsOf_cons, extentsOf_cons, ih, add_assoc]

@[simp] theorem extentsOf_reverse : extentsOf ts.reverse = extentsOf ts := by
  induction ts with
  | nil => rfl
  | cons t ts ih =>
      rw [List.reverse_cons, extentsOf_append, ih, extentsOf_cons, extentsOf_cons, extentsOf_nil,
        add_zero, add_comm]

/-- A node that was built without comments. -/
@[simp] theorem extents_plain {head : Head} (h : head.comments = []) :
    (node head ts).extents = extentsOf ts := by
  rw [extents_node, h]
  exact zero_add _

@[simp] theorem extents_ofList {kind : Kind} {span : Span} :
    (ofList kind span ts).extents = extentsOf ts := extents_plain rfl

@[simp] theorem extents_leaf {kind : Kind} {span : Span} : (leaf kind span).extents = 0 := rfl

@[simp] theorem extents_textLeaf {kind : Kind} {text : String} {span : Span} :
    (textLeaf kind text span).extents = 0 := rfl

@[simp] theorem extents_identifier {name : String} {span : Span} :
    (identifier name span).extents = 0 := rfl

@[simp] theorem extents_number {value : Number} {span : Span} : (number value span).extents = 0 :=
  rfl

@[simp] theorem extents_withRole {role : Role} : (t.withRole role).extents = t.extents := by
  cases t
  rfl

@[simp] theorem extents_parenthesize : t.parenthesize.extents = t.extents := by
  cases t
  rfl

theorem extents_attach {comments : List Comment} :
    (t.attach comments).extents = ↑(comments.map Comment.extent) + t.extents := by
  cases t with
  | node head children =>
      show (node { head with comments := head.comments ++ comments } children).extents = _
      rw [extents_node, extents_node, List.map_append, ← Multiset.coe_add, ← add_assoc,
        add_comm (Multiset.ofList _)]

@[simp] theorem extents_member {name : String} {span : Span} :
    (member t name span).extents = t.extents := by
  simp [member]

@[simp] theorem extents_call {span : Span} :
    (call t ts span).extents = t.extents + extentsOf ts := by
  simp [call]

@[simp] theorem extentsOf_part {role : Role} {part : Option Tree} :
    extentsOf (Tree.part role part) = extentsOf part.toList := by
  cases part with
  | none => rfl
  | some t => simp [Tree.part]

/-- What the comments of several trees say and where they stand, where some may be left out. -/
def extentsOfSome (elements : List (Option Tree)) : Multiset Comment.Extent :=
  extentsOf elements.reduceOption

@[simp] theorem extentsOfSome_nil : extentsOfSome [] = 0 := rfl

variable {elements : List (Option Tree)}

@[simp] theorem extentsOfSome_none_cons :
    extentsOfSome (none :: elements) = extentsOfSome elements := by
  rw [extentsOfSome, List.reduceOption_cons_of_none, extentsOfSome]

@[simp] theorem extentsOfSome_some_cons :
    extentsOfSome (some t :: elements) = t.extents + extentsOfSome elements := by
  rw [extentsOfSome, List.reduceOption_cons_of_some, extentsOf_cons, extentsOfSome]

@[simp] theorem extentsOfSome_reverse :
    extentsOfSome elements.reverse = extentsOfSome elements := by
  rw [extentsOfSome, List.reduceOption, List.filterMap_reverse, extentsOf_reverse]
  rfl

@[simp] theorem extents_arrayInit {span : Span} :
    (arrayInit elements span).extents = extentsOfSome elements := by
  rw [arrayInit, extents_ofList]
  induction elements with
  | nil => rfl
  | cons element elements ih =>
      rw [List.map_cons, extentsOf_cons, ih]
      cases element with
      | none => rw [Option.getD_none, extents_leaf, zero_add, extentsOfSome_none_cons]
      | some t => rw [Option.getD_some, extentsOfSome_some_cons]

/-- A tree that was read behind several others. -/
theorem add_extentsOf_cons (given : Multiset Comment.Extent) :
    given + extentsOf ts + t.extents = given + extentsOf (t :: ts) := by
  rw [extentsOf_cons, add_assoc, add_comm (extentsOf ts)]

theorem add_extentsOfSome_cons (given : Multiset Comment.Extent) :
    given + extentsOfSome elements + t.extents = given + extentsOfSome (some t :: elements) := by
  rw [extentsOfSome_some_cons, add_assoc, add_comm (extentsOfSome elements)]

end Tree

namespace Grammar

open ScriptMin.Tree

variable {α β σ : Type} {e : Surroundings}

/-! ### What productions do to the stream -/

/-- What holds of a stream of a text whose first line has a number. -/
abbrev Condition := Nat → List Char → Stream → Prop

/-- A production that starts where the first condition holds ends where the second one does, if it
succeeds. -/
def Triple (e : Surroundings) (P : Condition) (p : Production α) (Q : α → Condition) : Prop :=
  ∀ line text s a s', P line text s → p e s = .ok (a, s') → Q a line text s'

/-- The result of a turn of a loop and what holds behind it. -/
def Turn.Holds (I : σ → Condition) (Q : α → Condition) : Turn σ α → Condition
  | .again state => I state
  | .done result => Q result

namespace Triple

variable {P P' : Condition} {Q : α → Condition} {R : β → Condition}
variable {p : Production α} {f : α → Production β}

theorem bind (h : Triple e P p Q) (hf : ∀ a, Triple e (Q a) (f a) R) :
    Triple e P (p >>= f) R := by
  intro line text s b s' hP hrun
  change (p e s >>= fun x => f x.1 e x.2) = _ at hrun
  cases hp : p e s with
  | error fault => rw [hp] at hrun; cases hrun
  | ok result =>
      rw [hp] at hrun
      exact hf result.1 line text result.2 b s' (h line text s result.1 result.2 hP hp) hrun

/-- A production that leaves a condition can stand in front of another one. -/
theorem keep (h : Triple e P p fun _ => P) (hf : ∀ a, Triple e P (f a) R) :
    Triple e P (p >>= f) R := bind h hf

theorem pure {a : α} (h : ∀ line text s, P line text s → Q a line text s) :
    Triple e P (pure a) Q := by
  rintro line text s _ _ hP ⟨⟩
  exact h line text s hP

theorem pure_bind {a : α} (h : Triple e P (f a) R) : Triple e P (Pure.pure a >>= f) R := h

theorem pre (h : Triple e P p Q) (hP : ∀ line text s, P' line text s → P line text s) :
    Triple e P' p Q :=
  fun line text s a s' hP' hrun => h line text s a s' (hP line text s hP') hrun

theorem post {Q' : α → Condition} (h : Triple e P p Q)
    (hQ : ∀ a line text s, Q a line text s → Q' a line text s) : Triple e P p Q' :=
  fun line text s a s' hP hrun => hQ a line text s' (h line text s a s' hP hrun)

theorem reject {cause : GrammarCause} {line : Nat} : Triple e P (reject cause line) Q := by
  intro _ _ _ _ _ _ hrun
  cases hrun

theorem unexpected {wanted : Wanted} {got : Token} : Triple e P (unexpected wanted got) Q := by
  intro _ _ _ _ _ _ hrun
  cases hrun

theorem reject_bind {cause : GrammarCause} {line : Nat} :
    Triple e P (Grammar.reject cause line >>= f) R :=
  bind (Q := fun _ _ _ _ => False) reject fun _ _ _ _ _ _ hfalse _ => hfalse.elim

theorem unexpected_bind {wanted : Wanted} {got : Token} :
    Triple e P (Grammar.unexpected wanted got >>= f) R :=
  bind (Q := fun _ _ _ _ => False) unexpected fun _ _ _ _ _ _ hfalse _ => hfalse.elim

theorem withReader {g : Surroundings → Surroundings} (h : Triple (g e) P p Q) :
    Triple e P (withReader g p) Q := h

theorem read_bind {f : Surroundings → Production β} (h : Triple e P (f e) R) :
    Triple e P (read >>= f) R := h

theorem get_bind {f : Stream → Production β} (h : ∀ s, Triple e P (f s) R) :
    Triple e P (get >>= f) R :=
  fun line text s b s' hP hrun => h s line text s b s' hP hrun

theorem ite {c : Prop} [Decidable c] {p q : Production α} (hp : c → Triple e P p Q)
    (hq : ¬ c → Triple e P q Q) : Triple e P (if c then p else q) Q := by
  split
  · exact hp ‹_›
  · exact hq ‹_›

/-- What follows a choice follows both of its branches. -/
theorem ite_bind {c : Prop} [Decidable c] {p q : Production α} (hp : c → Triple e P p Q)
    (hq : ¬ c → Triple e P q Q) (hf : ∀ a, Triple e (Q a) (f a) R) :
    Triple e P (if c then p >>= f else q >>= f) R :=
  ite (fun hc => bind (hp hc) hf) fun hc => bind (hq hc) hf

/-- A loop ends as its last turn does, if every turn keeps what holds of the state. -/
theorem loop {state : σ} {turn : σ → Production (Turn σ α)} {I : σ → Condition}
    (hturn : ∀ state, Triple e (I state) (turn state) (Turn.Holds I Q)) :
    Triple e (I state) (repeatTurns state turn) Q := by
  have hloop : ∀ n state, Triple e (I state) (repeatFrom turn n state) Q := by
    intro n
    induction n with
    | zero => exact fun state => get_bind fun _ => reject
    | succ n ih =>
        refine fun state => bind (hturn state) fun result => ?_
        cases result with
        | again next => exact ih next
        | done result => exact pure fun _ _ _ h => h
  exact hloop e.turns state

end Triple

/-! ### Conditions on comments -/

/-- At most the given number of tokens were looked at, and the comments up to there are the given
ones, which were handed out, and those that wait. -/
def Held (ahead : Nat) (given : Multiset Comment.Extent) : Condition := fun line text s =>
  s.Ready ∧ s.Retains line text ahead given

/-- The given token has just been read, and can be given back. -/
def HasRead (ahead : Nat) (given : Multiset Comment.Extent) (t : Token) : Condition :=
  fun line text s => s.Ready ∧ s.Fetched line text ahead given t

/-- The given token has just been looked at, and no other one. -/
def HasSeen (given : Multiset Comment.Extent) (t : Token) : Condition := fun line text s =>
  ∃ s', HasRead 0 given t line text s' ∧ s'.giveBack = s

/-- Numbers of tokens that may have been looked at where a part of the grammar goes on. -/
class Few (n : Nat) : Prop where
  le_one : n ≤ 1

instance : Few 0 := ⟨Nat.zero_le 1⟩

instance : Few 1 := ⟨Nat.le_refl 1⟩

section Conditions

variable {given : Multiset Comment.Extent} {line : Nat} {text : List Char} {s : Stream} {t : Token}
variable {n m : Nat}

theorem Held.mono (h : Held n given line text s) (hle : n ≤ m) : Held m given line text s :=
  ⟨h.1, h.2.mono hle⟩

theorem HasRead.held (h : HasRead n given t line text s) : Held n given line text s :=
  ⟨h.1, h.2.retains⟩

theorem HasRead.giveBack (h : HasRead n given t line text s) :
    Held (n + 1) given line text s.giveBack := ⟨h.1.giveBack, h.2.giveBack⟩

theorem HasSeen.held (h : HasSeen given t line text s) : Held 1 given line text s := by
  obtain ⟨s', hs', rfl⟩ := h
  exact hs'.giveBack

end Conditions

namespace Triple

variable {given : Multiset Comment.Extent} {operand : Bool} {n : Nat} {t : Token}
variable {P : Condition} {Q : α → Condition} {p : Production α}

theorem of_held {m : Nat} (h : Triple e (Held m given) p Q) (hle : n ≤ m) :
    Triple e (Held n given) p Q :=
  h.pre fun _ _ _ hs => hs.mono hle

/-- A token that was read and is not given back is consumed. -/
theorem consumed [few : Few n] (h : Triple e (Held 1 given) p Q) :
    Triple e (HasRead n given t) p Q :=
  h.pre fun _ _ _ hs => hs.held.mono few.le_one

/-- What a production gives has the comments that it was given and those it met. -/
theorem give {weight : α → Multiset Comment.Extent} {a : α} (h : given = weight a) :
    Triple e (Held 1 given) (Pure.pure a) fun a => Held 1 (weight a) :=
  pure fun _ _ _ hs => h ▸ hs

theorem again {I : σ → Multiset Comment.Extent} {state : σ} (h : given = I state) :
    Triple e (Held 1 given) (Pure.pure (Turn.again state))
      (Turn.Holds (fun state => Held 1 (I state)) Q) :=
  pure fun _ _ _ hs => (h ▸ hs : Held 1 (I state) _ _ _)

theorem done {I : σ → Condition} {weight : α → Multiset Comment.Extent} {a : α}
    (h : given = weight a) :
    Triple e (Held 1 given) (Pure.pure (Turn.done a))
      (Turn.Holds I fun a => Held 1 (weight a)) :=
  pure fun _ _ _ hs => (h ▸ hs : Held 1 (weight a) _ _ _)

/-- A loop that collects comments. -/
theorem collect {state : σ} {turn : σ → Production (Turn σ α)} {I : σ → Multiset Comment.Extent}
    {W : α → Multiset Comment.Extent} (hstate : given = I state)
    (hturn : ∀ state, Triple e (Held 1 (I state)) (turn state)
      (Turn.Holds (fun state => Held 1 (I state)) fun a => Held 1 (W a))) :
    Triple e (Held 1 given) (repeatTurns state turn) fun a => Held 1 (W a) :=
  hstate ▸ loop (I := fun state => Held 1 (I state)) hturn

theorem next : Triple e (Held (n + 1) given) (Grammar.next operand) (HasRead n given) :=
  fun _ _ _ _ _ hs hrun => ⟨hs.1.next hrun, hs.2.next hs.1.newlines hrun⟩

/-- A token that was looked at is read. -/
theorem next_seen (hnewline : t.kind ≠ .newline) (hambiguous : ¬ t.Ambiguous) :
    Triple e (HasSeen given t) (Grammar.next operand) fun _ => HasRead 0 given t := by
  rintro _ _ _ a s' ⟨s, hs, rfl⟩ hrun
  have hnext : Stream.next operand s.giveBack = .ok (t, s) :=
    hs.2.next_giveBack hnewline hambiguous
  obtain ⟨-, rfl⟩ := Prod.mk.inj (Except.ok.inj (hnext.symm.trans hrun))
  exact hs

/-- Looking through a body takes the stream back behind the token in front of it. -/
theorem hoisted (hnewline : t.kind ≠ .newline) (hend : t.kind ≠ .endOfInput) :
    Triple e (HasRead 0 given t) (Stream.hoisted : Production Hoisted) fun _ =>
      HasRead 0 given t := by
  intro _ _ s a s' hs hrun
  obtain ⟨-, -, -, -, -, -, -, -, htoken, hle, -⟩ := hs.2
  obtain ⟨found, s₁, hhoisted, -, -, hrestores⟩ := Stream.hoisted_restores s
  have hrest := hs.1.settled.atRest (Nat.le_zero.mp hle) (htoken ▸ hnewline) (htoken ▸ hend)
  rw [hrestores hrest] at hhoisted
  obtain ⟨-, rfl⟩ := Prod.mk.inj (Except.ok.inj (hhoisted.symm.trans hrun))
  exact hs

theorem unread : Triple e (HasRead n given t) Grammar.unread fun _ => Held (n + 1) given := by
  rintro _ _ s _ _ hs ⟨⟩
  exact hs.giveBack

theorem peek :
    Triple e (Held (n + 1) given) (Grammar.peek operand) fun _ => Held (n + 1) given := by
  intro _ _ s a s' hs hrun
  obtain ⟨s₁, hnext, rfl⟩ := Stream.peek_eq_ok hrun
  exact ⟨hs.1.peek hrun, hs.2.peek hs.1.newlines hrun⟩

theorem peek_before : Triple e (Held 1 given) (Grammar.peek operand) (HasSeen given) := by
  intro _ _ s a s' hs hrun
  obtain ⟨s₁, hnext, rfl⟩ := Stream.peek_eq_ok hrun
  exact ⟨s₁, ⟨hs.1.next hnext, hs.2.next hs.1.newlines hnext⟩, rfl⟩

theorem peek_behind (ht : ¬ t.Ambiguous) :
    Triple e (HasRead 0 given t) (Grammar.peek operand) fun _ => HasRead 1 given t := by
  intro _ _ s a s' hs hrun
  obtain ⟨s₁, hnext, rfl⟩ := Stream.peek_eq_ok hrun
  exact ⟨hs.1.peek hrun, hs.2.peek hs.1.newlines ht hrun⟩

theorem peekOnLine :
    Triple e (Held 1 given) (Grammar.peekOnLine operand) fun _ => Held 1 given := by
  intro _ _ s a s' hs hrun
  exact ⟨hs.1.peekOnLine hrun, hs.2.peekOnLine hrun⟩

/-- Reading a token consumes it. -/
theorem read : Triple e (Held 1 given) (Grammar.next operand) fun _ => Held 1 given :=
  next.post fun _ _ _ _ hs => hs.held.mono (Nat.zero_le 1)

theorem nextIf {test : Token → Bool} :
    Triple e (Held 1 given) (Stream.nextIf operand test : Production Bool)
      fun _ => Held 1 given := by
  intro _ _ s found s' hs hrun
  obtain ⟨t, s₁, hnext, rfl⟩ := Stream.nextIf_eq_ok hrun
  have hbehind := next (e := e) _ _ s t s₁ hs hnext
  cases found with
  | true => exact hbehind.held.mono (Nat.zero_le 1)
  | false => exact hbehind.giveBack

theorem accept {sign : Punctuator} :
    Triple e (Held 1 given) (Grammar.accept sign) fun _ => Held 1 given := nextIf

theorem acceptWord {word : Keyword} :
    Triple e (Held 1 given) (Grammar.acceptWord word) fun _ => Held 1 given := nextIf

theorem expect {sign : Punctuator} :
    Triple e (Held 1 given) (Grammar.expect sign) fun _ => Held 1 given :=
  read.keep fun _ => .ite (fun _ => .pure fun _ _ _ h => h) fun _ => .unexpected

theorem expectWord {word : Keyword} :
    Triple e (Held 1 given) (Grammar.expectWord word) fun _ => Held 1 given :=
  read.keep fun _ => .ite (fun _ => .pure fun _ _ _ h => h) fun _ => .unexpected

theorem acceptPlainAssign :
    Triple e (Held 1 given) Grammar.acceptPlainAssign fun _ => Held 1 given := by
  refine .bind next fun token => .ite (fun _ => ?_) fun _ => ?_
  · exact .pure fun _ _ _ h => h.held.mono (Nat.zero_le 1)
  · exact .bind unread fun _ => .pure fun _ _ _ h => h

theorem acceptEach : Triple e (Held 1 given) Grammar.acceptEach fun _ => Held 1 given := by
  refine peek.keep fun token => ?_
  split
  · exact read.keep fun _ => .pure fun _ _ _ h => h
  · exact .pure fun _ _ _ h => h

theorem spanFrom {start : Span} : Triple e P (Grammar.spanFrom start) fun _ => P :=
  .get_bind fun _ => .pure fun _ _ _ h => h

theorem endStatement : Triple e (Held 1 given) Grammar.endStatement fun _ => Held 1 given := by
  refine peekOnLine.keep fun token => ?_
  split
  · exact .pure fun _ _ _ h => h
  · exact .pure fun _ _ _ h => h
  · exact .pure fun _ _ _ h => h
  · exact read.keep fun _ => .pure fun _ _ _ h => h
  · exact .reject

/-- Comments are handed out when one token has been looked at. -/
theorem takeComments : Triple e (HasSeen given t) (Stream.takeComments : Production (Array Comment))
    fun comments => HasSeen (given + ↑(comments.toList.map Comment.extent)) t := by
  rintro _ _ _ _ _ ⟨s, hs, rfl⟩ ⟨⟩
  exact ⟨{ s with comments := #[], unsettled := 0 },
    ⟨⟨hs.1.newlines, fun _ _ => rfl⟩, hs.2.takeComments⟩, rfl⟩

end Triple

/-! ### Expressions -/

/-- How many tokens may have been looked at when a part of the grammar starts. Two is what an
expression statement starts with, whose first word might have been a label. -/
def Nonterminal.reach : Nonterminal → Nat
  | .statement => 1
  | _ => 2

/-- A production gives a tree with the comments that it met. -/
def Delivers (e : Surroundings) (ahead : Nat) (p : Production α)
    (weight : α → Multiset Comment.Extent) : Prop :=
  ∀ given, Triple e (Held ahead given) p fun a => Held 1 (given + weight a)

/-- The other productions give trees with the comments that they met. -/
def Delivering (self : Self) : Prop :=
  ∀ e symbol, Delivers e symbol.reach (self symbol) extents

theorem Delivers.one {p : Production α} {weight : α → Multiset Comment.Extent}
    (h : Delivers e 2 p weight) : Delivers e 1 p weight :=
  fun given => (h given).of_held (Nat.le_succ 1)

theorem Delivering.one {self : Self} (h : Delivering self) (e : Surroundings)
    (symbol : Nonterminal) : Delivers e 1 (self symbol) extents := by
  cases symbol with
  | statement => exact h e .statement
  | assignment => exact (h e .assignment).one
  | unary => exact (h e .unary).one
  | member calls => exact (h e (.member calls)).one
  | pattern => exact (h e .pattern).one

/-- A part that may be left out. -/
theorem Delivers.optional {p : Production Tree} (h : Delivers e 1 p extents)
    (given : Multiset Comment.Extent) :
    Triple e (Held 1 given) (some <$> p) fun part => Held 1 (given + extentsOf part.toList) :=
  .bind (h given) fun t => .give (by simp)

theorem Triple.absent {given : Multiset Comment.Extent} :
    Triple e (Held 1 given) (Pure.pure none)
      fun part : Option Tree => Held 1 (given + extentsOf part.toList) :=
  .give (by simp)

section Expressions

variable {self : Self} (h : Delivering self) (e : Surroundings)
include h

theorem delivers_expression : Delivers e 2 (expression self) extents := by
  intro given
  refine .keep .peek fun start => .bind (h e .assignment given) fun first => ?_
  refine .keep .peek fun following => .ite (fun _ => ?_) fun _ => .give rfl
  refine .bind (.collect (I := fun ts => given + extentsOf ts) (by simp) fun ts => ?_)
    fun ts => .keep .spanFrom fun span => .give (by rw [extents_ofList])
  refine .keep .accept fun more => .ite (fun _ => ?_) fun _ => .done (by rw [extentsOf_reverse])
  exact .bind (h.one e .assignment _) fun part => .again (add_extentsOf_cons given)

theorem delivers_parenExpression : Delivers e 1 (parenExpression self) extents := by
  intro given
  refine .keep .expect fun _ => .bind (.withReader ?_) fun inner => .keep .expect fun _ => .give rfl
  exact (delivers_expression h _).one given

omit h in
theorem delivers_binaryTurn {operand : Production Tree} (hoperand : Delivers e 2 operand extents)
    (n : Nat) (start : Span) (left : Tree) (given : Multiset Comment.Extent) :
    Triple e (Held 1 (given + left.extents)) (binaryTurn operand n start left)
      (Turn.Holds (fun t => Held 1 (given + t.extents)) fun t => Held 1 (given + t.extents)) := by
  refine .keep .peek fun token => ?_
  split
  case h_2 => exact .done rfl
  case h_1 level op _ =>
      refine .read_bind (.ite (fun _ => ?_) fun _ => .done rfl)
      refine .keep .read fun _ => .bind (hoperand.one _) fun right => .keep .spanFrom fun span => ?_
      exact .again (by simp [add_assoc])

theorem delivers_binary (n : Nat) : Delivers e 2 (binary self n) extents := by
  induction n with
  | zero => exact h e .unary
  | succ n ih =>
      intro given
      refine .keep .peek fun start => .bind (ih given) fun first => ?_
      exact .collect rfl fun left => delivers_binaryTurn e ih n _ left given

theorem delivers_conditional : Delivers e 2 (conditional self) extents := by
  intro given
  refine .keep .peek fun start => .bind (delivers_binary h e _ given) fun condition => ?_
  refine .keep .accept fun more => .ite (fun _ => ?_) fun _ => .give rfl
  refine .bind (.withReader (h.one _ .assignment _)) fun thenPart => .keep .expect fun _ => ?_
  refine .bind (h.one e .assignment _) fun elsePart => .keep .spanFrom fun span => .give ?_
  simp [add_assoc]

theorem delivers_yieldExpression : Delivers e 2 (yieldExpression self) extents := by
  intro given
  refine .bind .next fun token => .consumed (.read_bind (.ite (fun _ => ?_) fun _ => .reject_bind))
  refine .keep .peekOnLine fun following => ?_
  dsimp only
  refine .ite (fun _ => ?_) fun _ => ?_
  · exact .pure_bind (.keep .spanFrom fun span => .give (by simp))
  · refine .bind (h.one e .assignment _) fun value => .pure_bind (.keep .spanFrom fun span => ?_)
    exact .give (by simp)

theorem delivers_assignment : Delivers e 2 (assignment self) extents := by
  intro given
  refine .keep .peek fun first => .ite (fun _ => delivers_yieldExpression h e given) fun _ => ?_
  refine .bind (delivers_conditional h e given) fun target => .keep .peek fun token => ?_
  refine .ite (fun _ => ?_) fun _ => .give rfl
  refine .keep .read fun _ => .ite (fun _ => ?_) fun _ => .reject_bind
  refine .bind (h.one e .assignment _) fun value => .keep .spanFrom fun span => .give ?_
  simp [add_assoc]

omit h in
theorem steady_checkUpdateTarget {P : Condition} (operand : Tree) (line : Nat) :
    Triple e P (checkUpdateTarget operand line) fun _ => P := by
  rw [checkUpdateTarget]
  split
  · exact .pure fun _ _ _ hs => hs
  · exact .pure fun _ _ _ hs => hs
  · exact .reject

theorem delivers_unary : Delivers e 2 (unary self) extents := by
  intro given
  refine .bind .next fun token => ?_
  split
  case h_1 op _ =>
      refine .consumed (.bind (h.one e .unary given) fun operand => .keep .spanFrom fun span => ?_)
      exact .give (by simp)
  case h_2 =>
      split
      case h_1 op _ =>
          refine .consumed (.bind (h.one e .unary given) fun operand => ?_)
          refine .keep (steady_checkUpdateTarget e operand _) fun _ => ?_
          exact .keep .spanFrom fun span => .give (by simp)
      case h_2 =>
          refine .bind .unread fun _ => .bind (h e (.member true) given) fun operand => ?_
          refine .keep .peekOnLine fun following => ?_
          split
          case h_2 => exact .give rfl
          case h_1 op _ =>
              refine .keep .read fun _ => .keep (steady_checkUpdateTarget e operand _) fun _ => ?_
              exact .keep .spanFrom fun span => .give (by simp)

omit h in
theorem delivers_propertyKey {given : Multiset Comment.Extent} (token : Token) :
    Triple e (Held 1 given) (propertyKey token) fun t => Held 1 (given + t.extents) := by
  rw [propertyKey]
  split
  · exact .give (by simp)
  · exact .give (by simp)
  · split
    · exact .give (by simp)
    · exact .unexpected

theorem delivers_binding (wanted : Wanted) : Delivers e 2 (binding self wanted) extents := by
  intro given
  refine .keep .peek fun token => ?_
  split
  · exact h e .pattern given
  · exact h e .pattern given
  · exact .bind .next fun _ => .consumed (.give (by simp))
  · exact .unexpected

theorem delivers_arrayPatternElements :
    Delivers e 1 (arrayPatternElements self) extentsOfSome := by
  intro given
  refine .collect (I := fun elements => given + extentsOfSome elements) (by simp)
    fun elements => ?_
  refine .keep .peek fun token => .ite (fun _ => ?_) fun _ => .ite (fun _ => ?_) fun _ => ?_
  · exact .keep .read fun _ => .done (by rw [extentsOfSome_reverse])
  · exact .keep .read fun _ => .again (by rw [extentsOfSome_none_cons])
  · refine .bind ((delivers_binding h e _).one _) fun element => .keep .read fun after => ?_
    rw [add_extentsOfSome_cons]
    refine .ite (fun _ => .done ?_) fun _ => .ite (fun _ => .again rfl) fun _ => .unexpected
    rw [extentsOfSome_reverse]

theorem delivers_propertyPattern (token : Token) :
    Delivers e 1 (propertyPattern self token) extents := by
  intro given
  have hkeyed : Triple e (Held 1 given) (do
      let key ← propertyKey token
      let _ ← expect .colon
      let value ← binding self .variableName
      return .ofList .propertyInit (← spanFrom token.span) [key, value] : Production Tree)
      fun t => Held 1 (given + t.extents) := by
    refine .bind (delivers_propertyKey e token) fun key => .keep .expect fun _ => ?_
    refine .bind ((delivers_binding h e _).one _) fun value => .keep .spanFrom fun span => .give ?_
    simp [add_assoc]
  rw [propertyPattern]
  split
  · refine .keep .accept fun more => ?_
    dsimp only
    refine .ite (fun _ => ?_) fun _ => ?_
    · refine .bind ((delivers_binding h e _).one _) fun value => .keep .spanFrom fun span => ?_
      exact .give (by simp)
    · exact .pure_bind (.keep .spanFrom fun span => .give (by simp))
  · exact hkeyed
  · exact hkeyed
  · exact hkeyed
  · exact .unexpected

theorem delivers_objectPatternProperties :
    Delivers e 1 (objectPatternProperties self) extentsOf := by
  intro given
  refine .collect (I := fun ts => given + extentsOf ts) (by simp) fun ts => ?_
  refine .keep .read fun token => .ite (fun _ => .done (by rw [extentsOf_reverse])) fun _ => ?_
  refine .bind (delivers_propertyPattern h e token _) fun t => .keep .read fun after => ?_
  rw [add_extentsOf_cons]
  refine .ite (fun _ => .done ?_) fun _ => .ite (fun _ => .again rfl) fun _ => .unexpected
  rw [extentsOf_reverse]

theorem delivers_pattern : Delivers e 2 (pattern self) extents := by
  intro given
  refine .bind .next fun token => ?_
  split
  · refine .consumed (.bind (delivers_arrayPatternElements h e given) fun elements => ?_)
    exact .keep .spanFrom fun span => .give (by rw [extents_arrayInit])
  · refine .consumed (.bind (delivers_objectPatternProperties h e given) fun ts => ?_)
    exact .keep .spanFrom fun span => .give (by rw [extents_ofList])
  · exact .unexpected

/-! ### Comprehensions, calls and arrays -/

theorem delivers_comprehensionFor : Delivers e 1 (comprehensionFor self) extents := by
  intro given
  refine .get_bind fun _ => .keep .acceptEach fun each => .keep .expect fun _ => ?_
  refine .bind ((delivers_binding h e _).one given) fun iterator => .keep .expectWord fun _ => ?_
  refine .bind (.withReader ((delivers_expression h _).one _)) fun object => ?_
  exact .keep .expect fun _ => .keep .spanFrom fun span => .give (by simp [add_assoc])

theorem delivers_comprehensionTail : Delivers e 1 (comprehensionTail self) extents := by
  intro given
  refine .keep .peek fun start => .bind (.collect (I := fun ts => given + extentsOf ts)
    (W := fun ts => given + extentsOf ts) (by simp) fun clauses => ?_) fun clauses => ?_
  · refine .keep .acceptWord fun more => .ite (fun _ => ?_) fun _ =>
      .done (by rw [extentsOf_reverse])
    exact .bind (delivers_comprehensionFor h e _) fun clause => .again (add_extentsOf_cons given)
  · refine .keep .acceptWord fun more => ?_
    dsimp only
    refine .ite_bind (fun _ => (delivers_parenExpression h e).optional _) (fun _ => .absent)
      fun guard => .keep .spanFrom fun span => .give (by simp [add_assoc])

omit h in
@[simp] theorem extents_comprehension {kind : Kind} {value tail : Tree} {span : Span} :
    (comprehension kind value tail span).extents = value.extents + tail.extents := by
  simp [comprehension]

theorem delivers_argumentTurn (ts : List Tree) (given : Multiset Comment.Extent) :
    Triple e (Held 1 (given + extentsOf ts)) (argumentTurn self ts)
      (Turn.Holds (fun ts => Held 1 (given + extentsOf ts))
        fun ts => Held 1 (given + extentsOf ts)) := by
  have hrest : ∀ argument : Tree, Triple e (Held 1 (given + extentsOf ts + argument.extents)) (do
      if ← accept .comma then return Turn.again (argument :: ts)
      return Turn.done (argument :: ts).reverse : Production (Turn (List Tree) (List Tree)))
      (Turn.Holds (fun ts => Held 1 (given + extentsOf ts))
        fun ts => Held 1 (given + extentsOf ts)) := by
    intro argument
    refine .keep .accept fun more => .ite (fun _ => .again (add_extentsOf_cons given)) fun _ => ?_
    exact .done (by rw [extentsOf_reverse, add_extentsOf_cons])
  refine .keep .peek fun start => .bind (h.one e .assignment _) fun value => ?_
  refine .keep .peek fun following => ?_
  dsimp only
  refine .ite (fun _ => ?_) fun _ => .pure_bind (hrest value)
  refine .bind (delivers_comprehensionTail h e _) fun tail => .keep .spanFrom fun span => ?_
  refine .ite (fun _ => ?_) fun _ => .reject_bind
  refine .keep .peek fun closing => .ite (fun _ => .pure_bind ?_) fun _ => .reject_bind
  rw [add_assoc _ value.extents, ← @extents_comprehension .generator _ _ span]
  exact hrest _

theorem delivers_arguments : Delivers e 1 (arguments self) extentsOf := by
  intro given
  refine .withReader (.keep .accept fun closed => .ite (fun _ => .give (by simp)) fun _ => ?_)
  refine .bind (.collect (by simp) fun ts => delivers_argumentTurn h _ ts given) fun args => ?_
  exact .keep .expect fun _ => .give rfl

theorem delivers_suffixTurn (calls : Bool) (start : Span) (object : Tree)
    (given : Multiset Comment.Extent) :
    Triple e (Held 1 (given + object.extents)) (suffixTurn self calls start object)
      (Turn.Holds (fun t => Held 1 (given + t.extents)) fun t => Held 1 (given + t.extents)) := by
  refine .bind .next fun token => ?_
  split
  · refine .consumed (.keep .read fun nameToken => ?_)
    split
    · exact .keep .spanFrom fun span => .again (by simp)
    · exact .unexpected
  · refine .consumed (.bind (.withReader ((delivers_expression h _).one _)) fun index => ?_)
    exact .keep .expect fun _ => .keep .spanFrom fun span => .again (by simp [add_assoc])
  · refine .ite (fun _ => ?_) fun _ => .bind .unread fun _ => .done rfl
    refine .consumed (.bind (delivers_arguments h e _) fun args => ?_)
    exact .keep .spanFrom fun span => .again (by simp [add_assoc])
  · exact .bind .unread fun _ => .done rfl

theorem delivers_memberSuffixes (calls : Bool) (start : Span) (first : Tree)
    (given : Multiset Comment.Extent) :
    Triple e (Held 1 (given + first.extents)) (memberSuffixes self calls start first)
      fun t => Held 1 (given + t.extents) :=
  .collect rfl fun object => delivers_suffixTurn h e calls start object given

omit h in
def elementExtents : Elements → Multiset Comment.Extent
  | .inl elements => extentsOfSome elements
  | .inr (value, tail) => value.extents + tail.extents

theorem delivers_elementTurn (elements : List (Option Tree)) (given : Multiset Comment.Extent) :
    Triple e (Held 1 (given + extentsOfSome elements)) (elementTurn self elements)
      (Turn.Holds (fun elements => Held 1 (given + extentsOfSome elements))
        fun elements => Held 1 (given + elementExtents elements)) := by
  refine .keep .peek fun token => .ite (fun _ => ?_) fun _ => .ite (fun _ => ?_) fun _ => ?_
  · exact .keep .read fun _ => .done (by rw [elementExtents, extentsOfSome_reverse])
  · exact .keep .read fun _ => .again (by rw [extentsOfSome_none_cons])
  · refine .bind (h.one e .assignment _) fun element => ?_
    have hrest : Triple e (Held 1 (given + extentsOfSome (some element :: elements))) (do
        let after ← next false
        if after.isPunctuator .closeBracket then
          return Turn.done (.inl (some element :: elements).reverse)
        if after.isPunctuator .comma then return Turn.again (some element :: elements)
        unexpected .commaOrBracket after : Production (Turn (List (Option Tree)) Elements))
        (Turn.Holds (fun elements => Held 1 (given + extentsOfSome elements))
          fun elements => Held 1 (given + elementExtents elements)) := by
      refine .keep .read fun after => .ite (fun _ => .done ?_) fun _ => ?_
      · rw [elementExtents, extentsOfSome_reverse]
      · exact .ite (fun _ => .again rfl) fun _ => .unexpected
    dsimp only
    rw [← add_extentsOfSome_cons] at hrest
    refine .ite (fun hempty => .keep .peek fun following => .ite (fun _ => ?_) fun _ => hrest)
      fun _ => hrest
    refine .bind (delivers_comprehensionTail h e _) fun tail => .keep .expect fun _ => .done ?_
    rw [List.isEmpty_iff.mp hempty, extentsOfSome_nil, add_zero, add_assoc, elementExtents]

theorem delivers_arrayLiteral (start : Span) : Delivers e 1 (arrayLiteral self start) extents := by
  intro given
  refine .bind (.collect (I := fun elements => given + extentsOfSome elements)
    (W := fun elements => given + elementExtents elements) (by simp) fun elements =>
      delivers_elementTurn h e elements given) fun elements => ?_
  split
  · exact .keep .spanFrom fun span => .give (by rw [extents_arrayInit, elementExtents])
  · exact .keep .spanFrom fun span => .give (by rw [extents_comprehension, elementExtents])

theorem delivers_parenthesized (start : Span) :
    Delivers e 1 (parenthesized self start) extents := by
  intro given
  refine .bind ((delivers_expression h e).one given) fun value => .keep .peek fun following => ?_
  dsimp only
  refine .ite (fun _ => ?_) fun _ => .pure_bind (.keep .expect fun _ => .give (by simp))
  refine .bind (delivers_comprehensionTail h e _) fun tail => .keep .spanFrom fun span => ?_
  exact .pure_bind (.keep .expect fun _ => .give (by simp [add_assoc]))

/-! ### Declarations -/

omit h in
theorem steady_checkRedeclaration {P : Condition} (names : List String) (line : Nat) :
    Triple e P (checkRedeclaration names line) fun _ => P := by
  refine .read_bind ?_
  split
  · exact .pure fun _ _ _ hs => hs
  · split
    · exact .reject
    · exact .pure fun _ _ _ hs => hs

theorem delivers_declaration (check : Bool) :
    Delivers e 1 (declaration self check) fun result => result.1.extents := by
  intro given
  -- What is done once the name or pattern is read.
  have hrest : ∀ (target : List Tree) {payload : Payload} {names : List String} {token : Token},
      Triple e (Held 1 (given + extentsOf target)) (do
        if check ∧ (← read).frames.isEmpty then checkRedeclaration names token.span.line
        let initializer ←
          if ← acceptPlainAssign then do pure [(← self .assignment).withRole .initializer]
          else pure []
        let span ← spanFrom token.span
        return (Tree.node { kind := .declaration, span, payload } (target ++ initializer),
          initializer.isEmpty && !target.isEmpty) : Production (Tree × Bool))
        fun result => Held 1 (given + result.1.extents) := by
    intro target payload names token
    have hinitialized : Triple e (Held 1 (given + extentsOf target)) (do
        let initializer ←
          if ← acceptPlainAssign then do pure [(← self .assignment).withRole .initializer]
          else pure []
        let span ← spanFrom token.span
        return (Tree.node { kind := .declaration, span, payload } (target ++ initializer),
          initializer.isEmpty && !target.isEmpty) : Production (Tree × Bool))
        fun result => Held 1 (given + result.1.extents) := by
      refine .keep .acceptPlainAssign fun initialized => .ite (fun _ => ?_) fun _ => ?_
      · refine .bind (h.one e .assignment _) fun value => .pure_bind ?_
        exact .keep .spanFrom fun span => .give (by simp [add_assoc])
      · exact .pure_bind (.keep .spanFrom fun span => .give (by simp))
    refine .read_bind (.ite (fun _ => ?_) fun _ => hinitialized)
    exact .keep (steady_checkRedeclaration e names _) fun _ => hinitialized
  refine .bind .next fun token => ?_
  dsimp only
  split
  · refine .consumed (.pure_bind ?_)
    exact (hrest []).pre fun _ _ _ hs => by simpa using hs
  · refine .bind .unread fun _ => .bind (h.one e .pattern given) fun target => .pure_bind ?_
    exact (hrest [target.withRole .names]).pre fun _ _ _ hs => by simpa using hs
  · refine .bind .unread fun _ => .bind (h.one e .pattern given) fun target => .pure_bind ?_
    exact (hrest [target.withRole .names]).pre fun _ _ _ hs => by simpa using hs
  · exact .unexpected_bind

theorem delivers_declarations (start : Span) (kind : Kind) (check : Bool) :
    Delivers e 1 (declarations self start kind check) fun list => list.tree.extents := by
  intro given
  refine .bind (.collect (I := fun state => given + extentsOf state.1)
    (W := fun result => given + extentsOf result.1) (by simp) ?_) ?_
  · rintro ⟨trees, openPattern⟩
    refine .bind (delivers_declaration h e _ _) fun result => .keep .accept fun more => ?_
    refine .ite (fun _ => .again (add_extentsOf_cons given)) fun _ => .done ?_
    rw [extentsOf_reverse, add_extentsOf_cons]
  · rintro ⟨trees, openPattern⟩
    exact .keep .spanFrom fun span => .give (by simp)

theorem delivers_letHead (start : Span) : Delivers e 1 (letHead self start) extents := by
  intro given
  refine .keep .expect fun _ => .bind (.withReader (delivers_declarations h _ start _ false _)) ?_
  exact fun list => .ite (fun _ => .reject_bind) fun _ => .keep .expect fun _ => .give rfl

/-! ### Functions -/

theorem delivers_statementsToBrace : Delivers e 1 (statementsToBrace self) extentsOf := by
  intro given
  refine .collect (I := fun ts => given + extentsOf ts) (by simp) fun ts => ?_
  refine .keep .peek fun token => .ite (fun _ => ?_) fun _ => ?_
  · exact .keep .read fun _ => .done (by rw [extentsOf_reverse])
  · refine .ite (fun _ => .reject_bind) fun _ => ?_
    exact .bind (h.one e .statement _) fun statement => .again (add_extentsOf_cons given)

theorem delivers_parameters : Delivers e 1 (parameters self) extentsOf := by
  intro given
  refine .keep .accept fun closed => .ite (fun _ => .give (by simp)) fun _ => ?_
  refine .collect (I := fun ts => given + extentsOf ts) (by simp) fun ts => ?_
  refine .bind ((delivers_binding h e _).one _) fun param => .keep .accept fun closed => ?_
  refine .ite (fun _ => .done ?_) fun _ => .keep .expect fun _ => .again (add_extentsOf_cons given)
  rw [extentsOf_reverse, add_extentsOf_cons]

theorem delivers_functionBody :
    Delivers e 1 (functionBody self) fun result => result.1.extents := by
  intro given
  refine .bind .peek_before fun token => .ite (fun hopening => ?_) fun _ => ?_
  · have hkind : token.kind = .punctuator .openBrace := by simpa [Token.isPunctuator] using hopening
    have hambiguous : ¬ token.Ambiguous := by simp [Token.Ambiguous, Token.dependsOnOperand, hkind]
    refine .bind (.next_seen (by simp [hkind]) hambiguous) fun opening => ?_
    refine .bind (.hoisted (by simp [hkind]) (by simp [hkind])) fun names => ?_
    refine .bind (.withReader (.consumed (delivers_statementsToBrace h _ _))) fun ts => ?_
    exact .keep .spanFrom fun span => .give (by simp)
  · refine .pre ?_ fun _ _ _ hs => hs.held
    exact .bind (h.one e .assignment _) fun value => .give (by simp)

theorem delivers_functionRest (start : Span) (name : Option String) (form : FunctionForm)
    (accessor : Option Accessor) :
    Delivers e 1 (functionRest self start name form accessor) extents := by
  intro given
  refine .keep .expect fun _ => .bind (delivers_parameters h e given) fun params => ?_
  refine .bind (.withReader (delivers_functionBody h _ _)) fun result => ?_
  exact .keep .spanFrom fun span => .give (by simp [add_assoc])

theorem delivers_function (start : Span) (form : FunctionForm) (named : Bool) :
    Delivers e 1 (function self start form named) extents := by
  intro given
  refine .keep .peek fun token => ?_
  dsimp only
  split
  · refine .keep .read fun _ => .pure_bind (.ite (fun _ => .reject_bind) fun _ => ?_)
    exact delivers_functionRest h e _ _ _ _ given
  · refine .pure_bind (.ite (fun _ => .reject_bind) fun _ => ?_)
    exact delivers_functionRest h e _ _ _ _ given

theorem delivers_property (token : Token) : Delivers e 1 (property self token) extents := by
  intro given
  refine .keep .peek fun following => ?_
  dsimp only
  split
  · exact .keep .read fun _ => delivers_functionRest h e _ _ _ _ given
  · refine .bind (delivers_propertyKey e token) fun key => .keep .expect fun _ => ?_
    refine .bind (h.one e .assignment _) fun value => .keep .spanFrom fun span => .give ?_
    simp [add_assoc]

theorem delivers_objectLiteral (start : Span) :
    Delivers e 1 (objectLiteral self start) extents := by
  intro given
  refine .bind (.collect (I := fun ts => given + extentsOf ts)
    (W := fun ts => given + extentsOf ts) (by simp) fun ts => ?_)
    fun ts => .keep .spanFrom fun span => .give (by rw [extents_ofList])
  refine .keep .read fun token => .ite (fun _ => .done (by rw [extentsOf_reverse])) fun _ => ?_
  refine .bind (delivers_property h e token _) fun t => .keep .read fun after => ?_
  rw [add_extentsOf_cons]
  refine .ite (fun _ => .done ?_) fun _ => .ite (fun _ => .again rfl) fun _ => .unexpected
  rw [extentsOf_reverse]

theorem delivers_primary : Delivers e 2 (primary self) extents := by
  intro given
  refine .bind .next fun token => ?_
  dsimp only
  refine .consumed ?_
  split
  · exact delivers_function h e _ _ _ given
  · exact .withReader (delivers_arrayLiteral h _ _ given)
  · exact .withReader (delivers_objectLiteral h _ _ given)
  · exact .withReader (delivers_parenthesized h _ _ given)
  · refine .bind (delivers_letHead h e _ _) fun list => ?_
    refine .bind (h.one e .assignment _) fun value => .keep .spanFrom fun span => ?_
    exact .give (by simp [add_assoc])
  all_goals first
    | exact .give (by simp)
    | exact .unexpected

theorem delivers_member (calls : Bool) : Delivers e 2 (member self calls) extents := by
  intro given
  refine .bind .next fun token => ?_
  dsimp only
  refine .ite (fun _ => .consumed ?_) fun _ => ?_
  · refine .bind (h.one e (.member false) _) fun callee => .keep .accept fun called => ?_
    refine .ite (fun _ => ?_) fun _ => ?_
    · refine .bind (delivers_arguments h e _) fun args => .keep .spanFrom fun span => .pure_bind ?_
      refine .pre (delivers_memberSuffixes h e calls token.span _ given) fun _ _ _ hs => ?_
      simpa [add_assoc] using hs
    · refine .keep .spanFrom fun span => .pure_bind ?_
      refine .pre (delivers_memberSuffixes h e calls token.span _ given) fun _ _ _ hs => ?_
      simpa using hs
  · refine .bind .unread fun _ => .bind (delivers_primary h e given) fun first => ?_
    exact delivers_memberSuffixes h e calls token.span first given

end Expressions

/-! ### Statements -/

section Statements

variable {self : Self} (h : Delivering self) (e : Surroundings)
include h

theorem delivers_statementIn (frame : Frame) : Delivers e 1 (statementIn self frame) extents :=
  fun given => .withReader (h.one _ .statement given)

theorem delivers_block (start : Span) : Delivers e 1 (block self start) extents := by
  intro given
  refine .withReader (.bind (delivers_statementsToBrace h _ given) fun ts => ?_)
  exact .keep .spanFrom fun span => .give (by rw [extents_ofList])

theorem delivers_bracedBlock : Delivers e 1 (bracedBlock self) extents :=
  fun given => .keep .expect fun _ => delivers_block h e _ given

theorem delivers_expressionStatement (start : Span) :
    Delivers e 2 (expressionStatement self start) extents := by
  intro given
  refine .bind (delivers_expression h e given) fun value => .keep .endStatement fun _ => ?_
  exact .keep .spanFrom fun span => .give (by simp)

theorem delivers_ifStatement (start : Span) : Delivers e 1 (ifStatement self start) extents := by
  intro given
  refine .bind (delivers_parenExpression h e given) fun condition => ?_
  refine .bind (delivers_statementIn h e .other _) fun thenPart => .keep .nextIf fun more => ?_
  dsimp only
  exact .ite_bind (fun _ => (delivers_statementIn h e .other).optional _) (fun _ => .absent)
    fun elsePart => .keep .spanFrom fun span => .give (by simp [add_assoc])

theorem delivers_clauseStatements : Delivers e 1 (clauseStatements self) extentsOf := by
  intro given
  refine .collect (I := fun ts => given + extentsOf ts) (by simp) fun ts => ?_
  refine .keep .peek fun token => .ite (fun _ => .done (by rw [extentsOf_reverse])) fun _ => ?_
  refine .ite (fun _ => .reject_bind) fun _ => ?_
  exact .bind (h.one e .statement _) fun statement => .again (add_extentsOf_cons given)

theorem delivers_clause (start : Span) (label : Option Tree) (given : Multiset Comment.Extent) :
    Triple e (Held 1 (given + extentsOf label.toList)) (clause self start label)
      fun t => Held 1 (given + t.extents) := by
  refine .keep .expect fun _ => .bind (delivers_clauseStatements h e _) fun ts => ?_
  refine .keep .spanFrom fun span => ?_
  dsimp only
  split
  · exact .give (by simp [add_assoc])
  · exact .give (by simp)

theorem delivers_clauses : Delivers e 1 (clauses self) extentsOf := by
  intro given
  refine .collect (I := fun state => given + extentsOf state.1) (by simp) ?_
  rintro ⟨ts, hasDefault⟩
  refine .keep .read fun token => ?_
  dsimp only
  split
  · exact .done (by rw [extentsOf_reverse])
  · refine .bind ((delivers_expression h e).one _) fun label => ?_
    refine .bind (.pre (delivers_clause h e token.span (some label) _) fun _ _ _ hs => ?_)
      fun clause => .again (add_extentsOf_cons given)
    simpa using hs
  · refine .ite (fun _ => .reject_bind) fun _ => ?_
    refine .bind (.pre (delivers_clause h e token.span none _) fun _ _ _ hs => ?_)
      fun clause => .again (add_extentsOf_cons given)
    simpa using hs
  · exact .unexpected

theorem delivers_switchStatement (start : Span) :
    Delivers e 1 (switchStatement self start) extents := by
  intro given
  refine .bind (delivers_parenExpression h e given) fun discriminant => .keep .expect fun _ => ?_
  refine .bind (.withReader (delivers_clauses h _ _)) fun clauses => .keep .spanFrom fun span => ?_
  exact .give (by simp [add_assoc])

/-! ### Loops -/

theorem delivers_forSetup (token : Token) :
    Delivers e 1 (forSetup self token) fun result => result.1.extents := by
  intro given
  refine .withReader ?_
  dsimp only
  split
  · refine .keep .read fun start => ?_
    exact .bind (delivers_declarations h _ _ _ _ given) fun list => .give rfl
  · exact .bind ((delivers_expression h _).one given) fun value => .give rfl

omit h in
theorem steady_checkForInTarget {P : Condition} (iterator : Tree) (declared : Option Declarations)
    (line : Nat) : Triple e P (checkForInTarget iterator declared line) fun _ => P := by
  cases declared <;> exact .ite (fun _ => .pure fun _ _ _ hs => hs) fun _ => .reject

theorem delivers_optionalPart (ending : Punctuator) :
    Delivers e 1 (optionalPart self ending) fun part => extentsOf part.toList := by
  intro given
  refine .keep .peek fun token => ?_
  dsimp only
  exact .ite_bind (fun _ => .absent) (fun _ => ((delivers_expression h e).one).optional _)
    fun part => .keep .expect fun _ => .give rfl

theorem delivers_forStatement (start : Span) : Delivers e 1 (forStatement self start) extents := by
  intro given
  have hfor : ∀ setup : Option Tree, Triple e (Held 1 (given + extentsOf setup.toList)) (do
      let _ ← expect .semicolon
      let condition ← optionalPart self .semicolon
      let update ← optionalPart self .closeParen
      let body ← statementIn self .loop
      return Tree.ofList .forLoop (← spanFrom start)
        (Tree.part .setup setup ++ Tree.part .condition condition ++ Tree.part .update update ++
          [body.withRole .body]) : Production Tree) fun t => Held 1 (given + t.extents) := by
    intro setup
    refine .keep .expect fun _ => .bind (delivers_optionalPart h e _ _) fun condition => ?_
    refine .bind (delivers_optionalPart h e _ _) fun update => ?_
    refine .bind (delivers_statementIn h e .loop _) fun body => .keep .spanFrom fun span => ?_
    exact .give (by simp [add_assoc])
  refine .keep .acceptEach fun each => .keep .expect fun _ => .keep .peek fun token => ?_
  dsimp only
  refine .ite (fun _ => .pure_bind ?_) fun _ => ?_
  · refine .keep .acceptWord fun isIn => .ite (fun _ => .reject_bind) fun _ => ?_
    refine .ite (fun _ => .reject_bind) fun _ => .ite (fun _ => .reject_bind) fun _ => ?_
    exact (hfor none).pre fun _ _ _ hs => by simpa using hs
  · refine .bind (delivers_forSetup h e token given) fun result => .pure_bind ?_
    refine .keep .acceptWord fun isIn => .ite (fun _ => ?_) fun _ => ?_
    · refine .keep (steady_checkForInTarget e _ _ _) fun _ => ?_
      refine .bind ((delivers_expression h e).one _) fun object => .keep .expect fun _ => ?_
      refine .bind (delivers_statementIn h e .loop _) fun body => .keep .spanFrom fun span => ?_
      exact .give (by simp [add_assoc])
    · refine .ite (fun _ => .reject_bind) fun _ => .ite (fun _ => .reject_bind) fun _ => ?_
      exact (hfor (some result.1)).pre fun _ _ _ hs => by simpa using hs

theorem delivers_whileStatement (start : Span) :
    Delivers e 1 (whileStatement self start) extents := by
  intro given
  refine .bind (delivers_parenExpression h e given) fun condition => ?_
  refine .bind (delivers_statementIn h e .loop _) fun body => .keep .spanFrom fun span => .give ?_
  simp [add_assoc]

theorem delivers_doStatement (start : Span) : Delivers e 1 (doStatement self start) extents := by
  intro given
  refine .bind (delivers_statementIn h e .loop given) fun body => .keep .expectWord fun _ => ?_
  refine .bind (delivers_parenExpression h e _) fun condition => .keep .accept fun _ => ?_
  exact .keep .spanFrom fun span => .give (by simp [add_assoc])

/-! ### Jumps -/

omit h in
theorem delivers_jumpStatement (start : Span) (isContinue : Bool) :
    Delivers e 1 (jumpStatement start isContinue) extents := by
  intro given
  refine .keep .peekOnLine fun token => ?_
  dsimp only
  -- With and without a label, the same follows.
  split
  · refine .keep .read fun _ => .pure_bind (.read_bind ?_)
    split
    · exact .reject_bind
    · exact .keep .endStatement fun _ => .keep .spanFrom fun span => .give (by simp)
  · refine .pure_bind (.read_bind ?_)
    split
    · exact .reject_bind
    · exact .keep .endStatement fun _ => .keep .spanFrom fun span => .give (by simp)

theorem delivers_returnStatement (start : Span) :
    Delivers e 1 (returnStatement self start) extents := by
  intro given
  refine .read_bind (.ite (fun _ => ?_) fun _ => .reject_bind)
  have hrest : ∀ value : Option Tree, Triple e (Held 1 (given + extentsOf value.toList)) (do
      endStatement
      return Tree.ofList .returnStmt (← spanFrom start) (Tree.part .value value) :
        Production Tree) fun t => Held 1 (given + t.extents) := by
    intro value
    exact .keep .endStatement fun _ => .keep .spanFrom fun span => .give (by simp)
  refine .keep .peekOnLine fun following => ?_
  dsimp only
  split
  all_goals first
    | exact .bind .absent hrest
    | exact .bind (((delivers_expression h e).one).optional _) hrest

/-! ### Other statements -/

theorem delivers_catchClause (start : Span) :
    Delivers e 1 (catchClause self start) fun result => result.1.extents := by
  intro given
  refine .keep .expect fun _ => .bind ((delivers_binding h e _).one given) fun exception => ?_
  refine .keep .acceptWord fun guarded => ?_
  dsimp only
  refine .ite_bind (fun _ => ((delivers_expression h e).one).optional _) (fun _ => .absent)
    fun guard => .keep .expect fun _ => .bind (delivers_bracedBlock h e _) fun body => ?_
  exact .keep .spanFrom fun span => .give (by simp [add_assoc])

theorem delivers_catchClauses : Delivers e 1 (catchClauses self) extentsOf := by
  intro given
  refine .collect (I := fun state => given + extentsOf state.1) (by simp) ?_
  rintro ⟨ts, final⟩
  refine .keep .acceptWord fun more => .ite (fun _ => ?_) fun _ => .done (by rw [extentsOf_reverse])
  refine .get_bind fun s => .ite (fun _ => .reject_bind) fun _ => ?_
  exact .bind (delivers_catchClause h e _ _) fun result => .again (add_extentsOf_cons given)

theorem delivers_tryStatement (start : Span) : Delivers e 1 (tryStatement self start) extents := by
  intro given
  refine .bind (delivers_bracedBlock h e given) fun body => ?_
  refine .bind (delivers_catchClauses h e _) fun catches => .keep .acceptWord fun more => ?_
  dsimp only
  refine .ite_bind (fun _ => (delivers_bracedBlock h e).optional _) (fun _ => .absent)
    fun finally? => .ite (fun _ => .reject_bind) fun _ => .keep .spanFrom fun span => .give ?_
  simp [add_assoc]

theorem delivers_labelStatement (start : Span) (label : String) :
    Delivers e 1 (labelStatement self start label) extents := by
  intro given
  refine .read_bind (.ite (fun _ => .reject_bind) fun _ => ?_)
  refine .bind (delivers_statementIn h e _ given) fun statement => .keep .spanFrom fun span => ?_
  exact .give (by simp)

theorem delivers_declarationStatement (start : Span) (kind : Kind) :
    Delivers e 1 (declarationStatement self start kind) extents := by
  intro given
  refine .bind (delivers_declarations h e start kind true given) fun list => ?_
  exact .ite (fun _ => .reject_bind) fun _ => .keep .endStatement fun _ => .give rfl

theorem delivers_letStatement (start : Span) : Delivers e 1 (letStatement self start) extents := by
  intro given
  refine .bind (delivers_letHead h e start given) fun list => .keep .peek fun token => ?_
  refine .ite (fun _ => ?_) fun _ => ?_
  · refine .keep .read fun opening => .bind (delivers_block h e _ _) fun body => ?_
    exact .keep .spanFrom fun span => .give (by simp [add_assoc])
  · refine .bind (h.one e .assignment _) fun value => .keep .spanFrom fun span => ?_
    exact .keep .endStatement fun _ => .keep .spanFrom fun span => .give (by simp [add_assoc])

theorem delivers_bareStatement : Delivers e 1 (bareStatement self) extents := by
  intro given
  refine .bind .next fun token => ?_
  dsimp only
  split
  · exact .consumed (.read_bind (delivers_function h e _ _ _ given))
  · exact .consumed (delivers_block h e _ given)
  · exact .consumed (.give (by simp))
  · exact .consumed (delivers_ifStatement h e _ given)
  · exact .consumed (delivers_switchStatement h e _ given)
  · exact .consumed (delivers_forStatement h e _ given)
  · exact .consumed (delivers_whileStatement h e _ given)
  · exact .consumed (delivers_doStatement h e _ given)
  · exact .consumed (delivers_jumpStatement e _ _ given)
  · exact .consumed (delivers_jumpStatement e _ _ given)
  · exact .consumed (delivers_tryStatement h e _ given)
  · refine .consumed (.bind ((delivers_expression h e).one given) fun value => ?_)
    exact .keep .endStatement fun _ => .keep .spanFrom fun span => .give (by simp)
  · exact .consumed (delivers_returnStatement h e _ given)
  · refine .consumed (.bind (delivers_parenExpression h e given) fun object => ?_)
    refine .bind (delivers_statementIn h e .other _) fun body => .keep .spanFrom fun span => ?_
    exact .give (by simp [add_assoc])
  · exact .consumed (.keep .endStatement fun _ => .keep .spanFrom fun span => .give (by simp))
  · exact .consumed (delivers_declarationStatement h e _ _ given)
  · exact .consumed (delivers_declarationStatement h e _ _ given)
  · refine .consumed (.keep .peek fun following => .ite (fun _ => ?_) fun _ => ?_)
    · exact delivers_letStatement h e _ given
    · exact delivers_declarationStatement h e _ _ given
  · exact .reject
  · exact .reject
  · -- The word may be a label, so the token behind it is looked at before it is given back.
    rename_i name hkind
    have hambiguous : ¬ token.Ambiguous := by
      rintro ⟨operand, hdepends⟩
      rw [Token.dependsOnOperand, hkind] at hdepends
      cases hdepends
    refine .bind (.peek_behind hambiguous) fun following => .ite (fun _ => ?_) fun _ => ?_
    · exact .consumed (.keep .read fun _ => delivers_labelStatement h e _ _ given)
    · exact .bind .unread fun _ => delivers_expressionStatement h e _ given
  · exact .bind .unread fun _ => (delivers_expressionStatement h e _).one given

theorem delivers_statement : Delivers e 1 (statement self) extents := by
  intro given
  refine .bind .peek_before fun token => .bind .takeComments fun comments => ?_
  refine .bind (.pre (delivers_bareStatement h e _) fun _ _ _ hs => hs.held) fun t => .give ?_
  rw [extents_attach, add_assoc]

end Statements

/-! ### Scripts -/

/-- Whatever the budget, the productions deliver the comments that they meet. -/
theorem delivering_derive (budget : Nat) : Delivering (derive budget) := by
  induction budget with
  | zero => exact fun e symbol given => .get_bind fun _ => .reject
  | succ budget ih =>
      intro e symbol
      cases symbol with
      | statement => exact delivers_statement ih e
      | assignment => exact delivers_assignment ih e
      | unary => exact delivers_unary ih e
      | member calls => exact delivers_member ih e calls
      | pattern => exact delivers_pattern ih e

def Starts : Condition := fun line text s => s = .ofChars line text

theorem Starts.held {line : Nat} {text : List Char} {s : Stream} (h : Starts line text s) :
    Held 0 0 line text s := by
  obtain rfl : s = .ofChars line text := h
  exact ⟨⟨rfl, Stream.settled_ofChars line text⟩, Stream.retains_ofChars line text⟩

theorem Triple.hoisted_start : Triple e Starts
    (Stream.hoisted : Production Hoisted) fun _ => Starts := by
  rintro line text _ a s' rfl hrun
  obtain ⟨found, s₁, hhoisted, -, -, hrestores⟩ := Stream.hoisted_restores (.ofChars line text)
  rw [hrestores (Stream.atRest_ofChars line text)] at hhoisted
  obtain ⟨-, rfl⟩ := Prod.mk.inj (Except.ok.inj (hhoisted.symm.trans hrun))
  rfl

/-- The tokens of the whole text have been consumed but for the end, and the comments of a tree are
those between them. -/
def Complete (t : Tree) : Condition := fun line text s =>
  ∃ ending comments place, Read line text (s.consumed.reverse ++ [ending]) comments place ∧
    ending.kind = .endOfInput ∧ t.extents = ↑comments

theorem isDone_before {given : Multiset Comment.Extent} :
    Triple e (Held 1 given) (Stream.isDone : Production Bool) fun found line text s =>
      ∃ t, HasSeen given t line text s ∧ found = (t.kind == .endOfInput) := by
  intro line text s found s' hs hrun
  obtain ⟨t, s₁, hpeek, hrest⟩ := Stream.bind_eq_ok (m := Stream.peek false)
    (f := fun t => pure (t.kind == .endOfInput)) hrun
  cases hrest
  exact ⟨t, Triple.peek_before (e := e) line text s t _ hs hpeek, rfl⟩

theorem complete_script {self : Self} (h : Delivering self) :
    Triple e Starts (script self) Complete := by
  refine .get_bind fun s => .keep .hoisted_start fun names => ?_
  refine .bind (Q := fun ts line text s => ∃ ending, HasSeen (extentsOf ts) ending line text s ∧
    ending.kind = .endOfInput) (.withReader (.pre (.loop (I := fun ts => Held 1 (extentsOf ts))
      fun ts => .bind isDone_before fun found => ?_) ?_)) fun ts => .keep .spanFrom fun span => ?_
  · refine .ite (fun hfound => .pure ?_) fun _ => .pre ?_ fun _ _ _ ⟨_, hs, _⟩ => hs.held
    · rintro _ _ s ⟨ending, hs, heq⟩
      refine ⟨ending, ?_, by simpa [hfound] using heq.symm⟩
      rwa [extentsOf_reverse]
    · refine .bind (h.one _ .statement _) fun statement => .again ?_
      rw [extentsOf_cons, add_comm]
  · exact fun _ _ _ hs => hs.held.mono (Nat.zero_le 1)
  · rintro line text s t s' ⟨ending, hs, hending⟩ hrun
    obtain ⟨comments, s₁, htake, hrest⟩ := Stream.bind_eq_ok (m := Stream.takeComments)
      (f := fun comments => pure ((ofList .script span ts).attach comments.toList)) hrun
    cases hrest
    obtain ⟨s₂, ⟨-, before, passed, place, hconsumed, hread, place', gap, hkeeps, rfl, hle, hqueued⟩,
      hback⟩ := Triple.takeComments (e := e) _ _ _ _ _ hs htake
    have hbefore : s'.consumed = before := by
      rw [← hback, Stream.giveBack, hconsumed, List.tail_cons]
    cases htake
    have hnone : s₂.extents = [] := congrArg Stream.extents hback
    rw [Nat.le_zero.mp hle] at hqueued
    refine ⟨s₂.token, passed ++ gap, place', ?_, hending, ?_⟩
    · rw [hbefore]
      exact hkeeps.read hread
    · have hbalance := hqueued.2
      rw [hnone, Multiset.coe_nil, add_zero] at hbalance
      rw [extents_attach, extents_ofList, add_comm, hbalance, Multiset.coe_add]

/-- What holds behind a production that reads a text holds of what it gives. -/
theorem Triple.run {p : Self → Production Tree} {Q : Tree → Condition} {line : Nat}
    {source : String} {t : Tree} (hp : ∀ budget e, Triple e Starts (p (derive budget)) Q)
    (h : run p line source = .ok t) :
    ∃ s, outcome p line source = .ok (t, s) ∧ Q t line source.toList s := by
  rw [Grammar.run] at h
  cases hrun : outcome p line source with
  | error fault => rw [hrun] at h; cases h
  | ok result =>
      rw [hrun] at h
      obtain rfl : result.1 = t := Except.ok.inj h
      exact ⟨result.2, rfl, hp _ _ _ _ _ _ _ rfl hrun⟩

end Grammar

open Grammar

/-- In the tree of a script that is accepted, every comment of the text stands exactly once: the
comments that are attached to its nodes are, in some order, the comments between the tokens that the
grammar consumed, before the first one and up to the end of the text, with their texts and lines. -/
theorem comments_parseScript {source : String} {line : Nat} {t : Tree}
    (h : parseScript source line = .ok t) :
    ∃ s ending comments place, outcome script line source = .ok (t, s) ∧
      Read line source.toList (s.consumed.reverse ++ [ending]) comments place ∧
        ending.kind = .endOfInput ∧ (t.comments.map Comment.extent).Perm comments := by
  obtain ⟨s, hrun, ending, comments, place, hread, hending, hcomments⟩ :=
    Triple.run (fun budget _ => complete_script (delivering_derive budget)) h
  exact ⟨s, ending, comments, place, hrun, hread, hending, Multiset.coe_eq_coe.mp hcomments⟩

/-- A script with comments in front of statements, in expressions, parameters and function bodies,
in front of a slash that starts a regular expression, and at the end. -/
def commented : String :=
  "/* a */f(/* b */1, function(/* c */x /* d */) \x7b\n// e\nreturn /* f */ /x/ \x7d)\n/* g */; // h"

theorem comments_parseScript_commented :
    ∃ t, parseScript commented 1 = .ok t ∧ ∃ s ending comments place,
      outcome script 1 commented = .ok (t, s) ∧
      Read 1 commented.toList (s.consumed.reverse ++ [ending]) comments place ∧
        ending.kind = .endOfInput ∧ (t.comments.map Comment.extent).Perm comments := by
  have hok : (parseScript commented 1).isOk := by decide +kernel
  cases hparse : parseScript commented 1 with
  | error fault => rw [hparse] at hok; cases hok
  | ok t => exact ⟨t, rfl, comments_parseScript hparse⟩

/-- The slash in front of a comment is consumed as a division, so the comment is one of the text. -/
example : (outcome script 1 "a / /*c*/ b;").toOption.map (fun (t, s) =>
    (s.consumed.reverse.map Token.kind, t.comments.map Comment.text)) =
      some ([.identifier "a", .punctuator .slash, .identifier "b", .punctuator .semicolon],
        ["/*c*/"]) := by decide +kernel

end ScriptMin
