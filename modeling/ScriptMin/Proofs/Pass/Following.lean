import ScriptMin.Pass.Statement
import ScriptMin.Proofs.Store.Forest

/-!
Following edits. A step of an edit is told by what holds behind it, so that an edit is followed
statement by statement. What edits do to the statements of a forest is told once for all passes.
-/

namespace ScriptMin

open Store

variable {α β : Type} {s s' : Store} {id old new block anchor child expression : NodeId}

/-! ### Following an edit -/

/-- What holds of the result of an edit and of the store it leaves. -/
def Edit.Gives (m : Edit α) (s : Store) (Q : α → Store → Prop) : Prop := Q (m.run s).1 (m.run s).2

namespace Edit

variable {Q R : α → Store → Prop} {P : β → Store → Prop}

theorem gives_bind {m : Edit α} {f : α → Edit β} :
    Gives (m >>= f) s P ↔ Gives m s fun a s' => Gives (f a) s' P := Iff.rfl

theorem gives_pure {a : α} : Gives (pure a : Edit α) s Q ↔ Q a s := Iff.rfl

/-- An edit that changes nothing owes nothing about what it changes. -/
theorem gives_unchanged {Q : Store → Prop} :
    Gives (pure false : Edit Bool) s fun changed s' => changed = true → Q s' :=
  fun h => absurd h Bool.false_ne_true

theorem gives_get {Q : Store → Store → Prop} : Gives (get : Edit Store) s Q ↔ Q s s := Iff.rfl

theorem gives_set {Q : PUnit → Store → Prop} : Gives (set s' : Edit PUnit) s Q ↔ Q ⟨⟩ s' := Iff.rfl

theorem gives_modify {Q : PUnit → Store → Prop} {f : Store → Store} :
    Gives (modify f : Edit PUnit) s Q ↔ Q ⟨⟩ (f s) := Iff.rfl

theorem gives_ite {c : Prop} [Decidable c] {m n : Edit α} (hpos : c → Gives m s Q)
    (hneg : ¬ c → Gives n s Q) : Gives (if c then m else n) s Q := by
  split
  · exact hpos ‹_›
  · exact hneg ‹_›

theorem Gives.mono {m : Edit α} (h : Gives m s Q) (hQ : ∀ a s', Q a s' → R a s') : Gives m s R :=
  hQ _ _ h

theorem Gives.and {m : Edit α} (h : Gives m s Q) (h' : Gives m s R) :
    Gives m s fun a s' => Q a s' ∧ R a s' := ⟨h, h'⟩

/-- A sweep keeps what the edit of every item keeps, where what holds may depend on the items that
are left. -/
theorem gives_sweep {edit : α → Edit Bool} {items : List α} {I : List α → Store → Prop}
    (h : I items s)
    (hedit : ∀ item rest s, I (item :: rest) s → Gives (edit item) s fun _ s' => I rest s') :
    Gives (sweep edit items) s fun _ s' => I [] s' := by
  induction items generalizing s with
  | nil => exact h
  | cons item rest ih =>
      rw [sweep, gives_bind]
      refine (hedit item rest s h).mono fun changed s' hs' => ?_
      rw [gives_bind]
      exact (ih hs').mono fun more s'' hs'' => hs''

/-- An edit leaves a forest behind. -/
def KeepsForest (m : Edit α) (s : Store) : Prop := Gives m s fun _ s' => s'.Forest

theorem KeepsForest.bind {m : Edit α} {f : α → Edit β} (h : KeepsForest m s)
    (hf : ∀ a s', s'.Forest → KeepsForest (f a) s') : KeepsForest (m >>= f) s := by
  rw [KeepsForest, gives_bind]
  exact Gives.mono h hf

theorem keepsForest_pure (h : s.Forest) (a : α) : KeepsForest (pure a : Edit α) s := h

theorem keepsForest_sweep {edit : α → Edit Bool} {items : List α} (h : s.Forest)
    (hedit : ∀ item s, s.Forest → KeepsForest (edit item) s) : KeepsForest (sweep edit items) s :=
  gives_sweep (I := fun _ s => s.Forest) h fun item _ s hs => hedit item s hs

end Edit

namespace Store

theorem mem_of_expressionOf? {statement : NodeId} (h : s.expressionOf? statement = some child) :
    child ∈ s.children statement := by
  rw [expressionOf?] at h
  split at h
  · exact mem_of_child? h
  · cases h

/-! ### Statements of a forest -/

variable {S : Set NodeId} {list : NodeId} {ids ids' : List NodeId}

/-- Nodes that are different children of the same list. -/
structure Siblings (s : Store) (list : NodeId) (ids : List NodeId) : Prop where
  nodup : ids.Nodup
  parent : ∀ x ∈ ids, s.parent? x = some list

theorem siblings_children (h : s.Forest) (list : NodeId) : Siblings s list (s.children list) :=
  ⟨h.nodup list, fun _ hx => h.parent?_of_mem hx⟩

theorem Siblings.sublist (h : Siblings s list ids)
    (hsub : ids'.Sublist ids) : Siblings s list ids' :=
  ⟨h.nodup.sublist hsub, fun x hx => h.parent x (hsub.subset hx)⟩

theorem Siblings.perm (h : Siblings s list ids) (hperm : ids.Perm ids') :
    Siblings s list ids' :=
  ⟨hperm.nodup_iff.mp h.nodup, fun x hx => h.parent x (hperm.mem_iff.mpr hx)⟩

theorem Siblings.of_steady (h : Siblings s list ids)
    (hs : Steady {x | x ∈ ids} s s') : Siblings s' list ids :=
  ⟨h.nodup, fun x hx => (hs.parent?_eq hx).trans (h.parent x hx)⟩

/-- A sibling can be moved without regard to the others. -/
theorem Siblings.movable {x : NodeId} (hids : Siblings s list (x :: ids))
    (h : s.Forest) : Movable {y | y ∈ ids} s x := by
  have hparent := hids.parent x List.mem_cons_self
  refine ⟨h.toLinked.loose_of_mem ((h.linked list x).mpr hparent), fun y hy => ?_⟩
  refine h.not_within_sibling (hids.parent y (List.mem_cons_of_mem _ hy)) hparent ?_
  rintro rfl
  exact (List.nodup_cons.mp hids.nodup).1 hy

theorem steady_insertBefore (h : s.Forest) (hchild : Movable S s child)
    (hanchor : ¬ s.Within anchor child) : Steady S s (s.insertBefore anchor child) := by
  rw [insertBefore]
  split
  case h_1 p index hp _ =>
      refine steady_insert h _ (h.parent_lt hp) hchild ?_
      exact fun hpc => hanchor ((within_of_parent hp).trans hpc)
  case h_2 => exact .refl h

theorem steady_insertAfter (h : s.Forest) (hchild : Movable S s child)
    (hanchor : ¬ s.Within anchor child) : Steady S s (s.insertAfter anchor child) := by
  rw [insertAfter]
  split
  case h_1 p index hp _ =>
      refine steady_insert h _ (h.parent_lt hp) hchild ?_
      exact fun hpc => hanchor ((within_of_parent hp).trans hpc)
  case h_2 => exact .refl h

/-- What is put behind a node gets the parent of that node, if it has one. -/
theorem insertAfter_eq_or_parent? (anchor : NodeId) (hchild : child < s.size) :
    s.insertAfter anchor child = s ∨
      ∃ p, s.parent? anchor = some p ∧ (s.insertAfter anchor child).parent? child = some p := by
  rw [insertAfter]
  split
  case h_1 p index hp _ =>
      refine .inr ⟨p, hp, ?_⟩
      rw [parent?_insert hchild, if_pos rfl]
  case h_2 => exact .inl rfl

theorem Forest.removeStatement (h : s.Forest) : (s.removeStatement id).Forest := by
  rw [Store.removeStatement]
  split
  · exact h.remove
  · rcases hadd : s.add { kind := .semicolon, span := s.span id } with ⟨empty, s'⟩
    obtain ⟨hs, hchildren⟩ := h.built_add (S := ∅) hadd
    exact hs.forest.replace_new hs.loose_new hchildren

/-- The statements of a block move to the place of a statement that is not among them. -/
theorem Forest.spliceBefore (h : s.Forest)
    (hoff : ∀ c ∈ s.children block, ¬ s.Within anchor c) : (s.spliceBefore block anchor).Forest := by
  have hmoved : Steady {anchor} s
      ((s.children block).foldl (fun s child => s.insertBefore anchor child) s) := by
    refine steady_foldl _ _ h fun c hc s' hs => ?_
    have hchild : Movable {anchor} s c :=
      ⟨h.toLinked.loose_of_mem hc, fun _ hx => hx ▸ hoff c hc⟩
    have hchild' := hchild.of_steady hs
    exact steady_insertBefore hs.forest hchild' (hchild'.off anchor rfl)
  exact hmoved.forest.remove

theorem Forest.replaceStatement (h : s.Forest) (hnew : Movable {old} s new) :
    (s.replaceStatement old new).Forest := by
  rw [Store.replaceStatement]
  split
  · exact h.spliceBefore fun c hc => (hnew.of_child h hc).off old rfl
  · exact h.replace hnew.lt hnew.ne_root (hnew.off old rfl)

/-- An expression becomes a statement of its own. -/
theorem Forest.built_wrapExpression (h : s.Forest) (hexpression : Movable S s expression)
    (hwrap : s.wrapExpression expression = (new, s')) : Built S s s' new := by
  rcases hadd : s.add { kind := .semicolon, span := s.span expression } with ⟨statement, s₁⟩
  obtain ⟨hs, -⟩ := h.built_add (S := S) hadd
  rw [Store.wrapExpression, hadd] at hwrap
  obtain ⟨rfl, rfl⟩ := Prod.mk.inj hwrap
  refine (hs.append (hexpression.of_steady hs.toSteady) ?_).setRole _ _
  exact Nat.ne_of_gt (hexpression.lt.trans_le hs.size_le_new)

end Store

end ScriptMin
