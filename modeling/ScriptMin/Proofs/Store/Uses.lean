import ScriptMin.Proofs.Store.Scanning

/-!
Uses of names. Every use is counted, so that a name that is used in a body or shared by a function
in it is not among the unused names of the body. Whether `eval` is used shows in the nodes that a
scan meets.
-/

namespace ScriptMin

/-! ### Counts -/

namespace NameCounts

variable {x name : String} {count : Nat} {counts : NameCounts}

/-- No name is counted without a use. -/
def Positive (counts : NameCounts) : Prop := ∀ entry ∈ counts, 0 < entry.2

theorem Positive.add (h : counts.Positive) (hcount : 0 < count) :
    (add name count counts).Positive := by
  induction counts with
  | nil => simpa [NameCounts.add, Positive] using hcount
  | cons entry rest ih =>
      obtain ⟨other, n⟩ := entry
      rw [Positive, List.forall_mem_cons] at h
      rw [NameCounts.add]
      split
      · exact List.forall_mem_cons.mpr ⟨hcount, List.forall_mem_cons.mpr h⟩
      · split
        · exact List.forall_mem_cons.mpr ⟨Nat.add_pos_left h.1 _, h.2⟩
        · exact List.forall_mem_cons.mpr ⟨h.1, ih h.2⟩

theorem Positive.count_pos (h : counts.Positive) (hx : x ∈ counts.map Prod.fst) :
    0 < counts.count x := by
  induction counts with
  | nil => cases hx
  | cons entry rest ih =>
      obtain ⟨other, n⟩ := entry
      rw [Positive, List.forall_mem_cons] at h
      rw [List.map_cons, List.mem_cons] at hx
      by_cases heq : x = other
      · simpa [NameCounts.count, List.lookup_cons, heq] using h.1
      · have hrest := ih h.2 (hx.resolve_left heq)
        rw [NameCounts.count] at hrest ⊢
        rwa [List.lookup_cons, beq_false_of_ne heq]

end NameCounts

namespace Scope

variable {x name : String} {count : Nat} {s nested : Scope}

theorem accessed_absorb (s nested : Scope) : (s.absorb nested).accessed =
    (nested.shared.foldl (fun s entry => s.access entry.1 entry.2) s).accessed := rfl

theorem positive_absorb (h : s.accessed.Positive) (hnested : nested.shared.Positive) :
    (s.absorb nested).accessed.Positive := by
  rw [accessed_absorb]
  exact List.foldlRecOn (motive := fun s : Scope => s.accessed.Positive) _ _ h
    fun s hs entry hentry => hs.add (hnested entry hentry)

theorem positive_shared_finish (h : s.accessed.Positive) : s.finish.shared.Positive :=
  fun entry hentry => h entry (List.mem_filter.mp hentry).1

/-- Whatever is used is not unused. -/
theorem not_mem_unused_finish (h : s.accessed.Positive) (hx : s.Accesses x) :
    x ∉ s.finish.unused := by
  intro hunused
  have hzero := (List.mem_filter.mp (NameSet.mem_ofList.mp hunused)).2
  exact Nat.ne_of_gt (h.count_pos hx) (eq_of_beq hzero)

theorem usesEval_absorb : (s.absorb nested).usesEval ↔
    s.usesEval ∨ nested.Shares "eval" ∨ nested.usesEval := by
  have hfold : ∀ (counts : NameCounts) (s : Scope),
      (counts.foldl (fun s entry => s.access entry.1 entry.2) s).usesEval ↔
        s.usesEval ∨ "eval" ∈ counts.map Prod.fst := by
    intro counts
    induction counts with
    | nil => simp
    | cons entry rest ih =>
        intro s
        rw [List.foldl_cons, ih, List.map_cons, List.mem_cons, ← or_assoc]
        refine or_congr_left ?_
        rw [access, Bool.or_eq_true, beq_iff_eq, eq_comm (a := entry.1)]
  rw [← or_assoc, show nested.Shares "eval" = ("eval" ∈ nested.shared.map Prod.fst) from rfl,
    ← hfold nested.shared s, ← Bool.or_eq_true]
  rfl

end Scope

namespace Tree

variable {inChain inTail : Bool} {scope : Scope} {t : Tree}

theorem positive_recordOwn (h : scope.accessed.Positive)
    (hnested : t.kind = .function → t.scope.shared.Positive) :
    (recordOwn inChain inTail t scope).accessed.Positive := by
  by_cases hname : t.kind = .identifier
  · obtain ⟨head, children⟩ := t
    rw [recordOwn, show head.kind = .identifier from hname]
    exact h.add Nat.one_pos
  by_cases hfunction : t.kind = .function
  · have hpositive := hnested hfunction
    obtain ⟨head, children⟩ := t
    rw [recordOwn, show head.kind = .function from hfunction]
    refine Scope.positive_absorb ?_ hpositive
    split <;> exact h
  · rwa [accessed_recordOwn hname hfunction]

/-- Names and functions bring `eval` along, and other nodes do not. -/
theorem usesEval_recordOwn : (recordOwn inChain inTail t scope).usesEval ↔ scope.usesEval ∨
    t.kind = .identifier ∧ t.head.text = "eval" ∨
      t.kind = .function ∧ (t.scope.Shares "eval" ∨ t.scope.usesEval) := by
  obtain ⟨head, children⟩ := t
  by_cases hname : head.kind = .identifier
  · simp [recordOwn, kind, Tree.head, hname, Scope.access]
  by_cases hfunction : head.kind = .function
  · simp only [recordOwn, kind, Tree.head, hfunction, reduceCtorEq, false_and, false_or, true_and]
    rw [Scope.usesEval_absorb]
    refine or_congr_left ?_
    split <;> rfl
  · have hsame : (recordOwn inChain inTail (.node head children) scope).usesEval =
        scope.usesEval := by
      rw [recordOwn]
      split
      case h_1 hkind => exact absurd hkind hname
      case h_2 hkind => exact absurd hkind hfunction
      all_goals first | rfl | (repeat' split) <;> rfl
    simp [hsame, kind, Tree.head, hname, hfunction]

end Tree

namespace Store

variable {s : Store} {owner d : NodeId} {x : String}

theorem Meets.lineLength_lt (hs : s.Forest) (h : s.Meets owner d) :
    s.lineLength owner < s.lineLength d := by
  have hlast : ∃ e, Relation.ReflTransGen s.Scans owner e ∧ s.Scans e d := by
    cases h with
    | top hc => exact ⟨owner, .refl, hc⟩
    | next hmeets hc =>
        refine ⟨_, hmeets.scans, ?_⟩
        rw [scanBelow] at hc
        split at hc
        · cases hc
        · exact hc
  obtain ⟨e, hpath, hstep⟩ := hlast
  exact (lineLength_le_of_scans hs hpath).trans_lt (hstep.lineLength_lt hs)

theorem accessed_startScope (s : Store) (owner : NodeId) : (s.startScope owner).accessed = [] := by
  rw [startScope]
  split <;> rfl

theorem usesEval_startScope (s : Store) (owner : NodeId) :
    (s.startScope owner).usesEval = false := by
  rw [startScope]
  split <;> rfl

section

variable (hs : s.Forest) (h : s.Sound)

include hs h

/-- All uses that a scan records are counted. -/
theorem positive_recorded (howner : s.OwnsBody owner) : (s.recorded owner).accessed.Positive := by
  induction hn : s.size - s.lineLength owner using Nat.strongRecOn generalizing owner with
  | _ n ih =>
      refine recorded_keeps (P := fun scope => scope.accessed.Positive) hs h howner ?_ ?_
      · intro d hd inChain scope hscope
        refine Tree.positive_recordOwn hscope fun hkind => ?_
        rw [kind_view] at hkind
        have hlt := hd.lineLength_lt hs
        have hle : s.lineLength d ≤ s.size := lineLength_le_size
        rw [scope_view hs h (.inl hkind)]
        exact Scope.positive_shared_finish (ih _ (by omega) (.inl hkind) rfl)
      · rw [accessed_startScope]
        exact fun _ h => absurd h List.not_mem_nil

variable (howner : s.OwnsBody owner)

include howner

/-- A name that a body uses is not unused there. -/
theorem not_mem_unused_scope (hx : (s.view owner).scope.Accesses x) :
    x ∉ (s.view owner).scope.unused := by
  rw [scope_view hs h howner] at hx ⊢
  exact Scope.not_mem_unused_finish (positive_recorded hs h howner) hx

/-- A body uses what a node uses that its scan meets. -/
theorem accesses_scope (hd : s.Meets owner d)
    (huses : ∀ inChain scope,
      (Tree.recordOwn inChain (s.isClause d) (s.view d) scope).Accesses x) :
    (s.view owner).scope.Accesses x := by
  rw [scope_view hs h howner]
  exact recorded_reaches (P := fun scope => scope.Accesses x) hs h howner
    (fun d _ inChain scope => Tree.accesses_recordOwn) hd huses

theorem accesses_name (hd : s.Meets owner d) (hkind : s.kind d = .identifier) :
    (s.view owner).scope.Accesses (s.text d) := by
  refine accesses_scope hs h howner hd fun inChain scope => ?_
  refine (Tree.accesses_recordOwn_identifier (by rwa [kind_view])).mpr (.inl ?_)
  rw [head_view]
  rfl

theorem accesses_nested (hd : s.Meets owner d) (hkind : s.kind d = .function)
    (hshares : (s.view d).scope.Shares x) : (s.view owner).scope.Accesses x :=
  accesses_scope hs h howner hd fun _ _ =>
    (Tree.accesses_recordOwn_function (by rwa [kind_view])).mpr (.inl hshares)

/-- A body shares what it uses, unless it is local. -/
theorem shares_of_accesses (hx : (s.view owner).scope.Accesses x)
    (hlocal : ¬ (s.view owner).scope.isLocal x) : (s.view owner).scope.Shares x := by
  rw [scope_view hs h howner] at hx hlocal ⊢
  exact Scope.shares_finish.mpr ⟨hx, hlocal⟩

/-- A body that uses the name `eval` is marked. -/
theorem usesEval_of_accesses (hx : (s.view owner).scope.Accesses "eval") :
    (s.view owner).scope.usesEval := by
  rw [scope_view hs h howner] at hx ⊢
  refine recorded_keeps (P := fun scope => scope.Accesses "eval" → scope.usesEval) hs h howner
    ?_ ?_ hx
  · intro d _ inChain scope hscope hx
    rw [Tree.usesEval_recordOwn]
    by_cases hname : (s.view d).kind = .identifier
    · rcases (Tree.accesses_recordOwn_identifier hname).mp hx with htext | hx
      · exact .inr (.inl ⟨hname, htext.symm⟩)
      · exact .inl (hscope hx)
    by_cases hfunction : (s.view d).kind = .function
    · rcases (Tree.accesses_recordOwn_function hfunction).mp hx with hshares | hx
      · exact .inr (.inr ⟨hfunction, .inl hshares⟩)
      · exact .inl (hscope hx)
    · rw [Scope.Accesses, Tree.accessed_recordOwn hname hfunction] at hx
      exact .inl (hscope hx)
  · intro hx
    rw [Scope.Accesses, accessed_startScope] at hx
    cases hx

/-- A body uses `eval` if its scan meets the name or a function whose body uses it. -/
theorem usesEval_scope : (s.view owner).scope.usesEval ↔ ∃ d, s.Meets owner d ∧
    (s.kind d = .identifier ∧ s.text d = "eval" ∨
      s.kind d = .function ∧ (s.view d).scope.usesEval) := by
  have hown : ∀ d inChain scope,
      (Tree.recordOwn inChain (s.isClause d) (s.view d) scope).usesEval ↔ scope.usesEval ∨
        s.kind d = .identifier ∧ s.text d = "eval" ∨
          s.kind d = .function ∧ (s.view d).scope.usesEval := by
    intro d inChain scope
    rw [Tree.usesEval_recordOwn, kind_view, head_view]
    refine or_congr_right (or_congr_right (and_congr_right fun hkind => or_iff_right_of_imp ?_))
    intro hshares
    refine usesEval_of_accesses hs h (.inl hkind) ?_
    rw [scope_view hs h (.inl hkind)] at hshares ⊢
    exact (Scope.shares_finish.mp hshares).1
  rw [scope_view hs h howner]
  constructor
  · refine recorded_keeps (P := fun scope => scope.usesEval → _) hs h howner ?_ ?_
    · intro d hd inChain scope hscope huses
      exact ((hown d inChain scope).mp huses).elim hscope fun hd' => ⟨d, hd, hd'⟩
    · intro huses
      rw [usesEval_startScope] at huses
      cases huses
  · rintro ⟨d, hd, huses⟩
    refine recorded_reaches (P := fun scope => scope.usesEval) hs h howner ?_ hd ?_
    · exact fun d _ inChain scope hscope => (hown d inChain scope).mpr (.inl hscope)
    · exact fun inChain scope => (hown d inChain scope).mpr (.inr huses)

end

end Store

end ScriptMin
