import ScriptMin.Proofs.Pass.Deciding

/-!
Decisions of a `switch`. The clause that is entered is the same whatever the values are that are not
looked into, and what is lost with the other clauses is never run.
-/

namespace ScriptMin

open Store Branches

namespace Store

variable {s : Store} {id c x y : NodeId} {v : Valuation} {literal : Literal} {i j : Nat}

/-- What ends in a `break` has a `break` that stands loose in it. -/
theorem EndsInBreak.breaksLoose (hs : s.Forest) (h : s.EndsInBreak x) :
    (s.view x).breaksLoose = true := by
  have hpart : ∀ {x c : NodeId}, (s.kind x).holdsBreaks = false → c ∈ s.children x →
      (s.view c).breaksLoose = true → (s.view x).breaksLoose = true := by
    intro x c hopen hc hloose
    refine Tree.breaksLoose_iff.mpr (.inr ⟨by rwa [kind_view], s.view c, ?_, hloose⟩)
    rw [hs.children_view]
    exact List.mem_map_of_mem hc
  induction h with
  | here hbreak => exact Tree.breaksLoose_iff.mpr (.inl hbreak)
  | block hkind hc _ ih => exact hpart (by rw [hkind]; rfl) hc ih
  | branch hkind _ _ hy _ ih => exact hpart (by rw [hkind]; rfl) (mem_of_branch? hy) ih

end Store

namespace Branches

variable {s : Store} {id c k x value body last clause : NodeId} {v : Valuation} {literal : Literal}

/-- Under all values that agree, the `switch` enters the clause that the choice is for. -/
theorem entry?_eq (hs : s.Sound) (hid : s.Within id s.root) (hv : v.Agrees s)
    (hvalue : s.child? id .discriminant = some value)
    (hliteral : (s.view value).literal? = some literal)
    (hsettled : ∀ c ∈ clausesOf s id, Settled s id c) : v.entry? s id = entryOf? s id value := by
  have hroot : ∀ {p q}, q ∈ s.children p → s.Within p s.root → s.Within q s.root :=
    fun hq hp => (within_of_parent (hs.parent?_of_mem hq)).trans hp
  rw [Valuation.entry?, entryOf?]
  congr 1
  refine List.find?_congr fun c hc => ?_
  rw [matchesValue, hvalue, Option.any_some,
    hv.value_literal (hroot (mem_of_child? hvalue) hid) hliteral]
  by_cases hcase : s.kind c = .defaultClause
  · rw [hcase]
    rfl
  obtain ⟨l, hl, hkind⟩ := (hsettled c hc).label hcase
  have hlroot := hroot (mem_of_child? hl) (hroot (List.mem_filter.mp hc).1 hid)
  rw [hl, Option.any_some, Option.any_some]
  congr 1
  cases hother : (s.view l).literal? with
  | some other =>
      rw [hv.value_literal hlroot hother, Bool.eq_iff_iff, beq_iff_eq]
      exact (Tree.literalsEqual?_eq_some_true hliteral hother).symm
  | none =>
      -- The label is a regular expression, which is equal to no literal.
      have hregExp : s.kind l = .regExp := by
        rw [Tree.literal?, kind_view] at hother
        revert hkind hother
        cases s.kind l <;> simp [Kind.isLiteral]
      have hobject : v.value l = .object (v.pattern (s.head l).bare) := by
        refine hv l hlroot _ ?_
        rw [Objects.result?.eq_def, show (s.head l).kind = _ from hregExp]
      have hdiffer : (s.view value).literalsEqual? (s.view l) ≠ some true := by
        intro hequal
        obtain ⟨_, _, -, hlit, -⟩ := Tree.equal?_of_literalsEqual? hequal
        rw [hother] at hlit
        cases hlit
      rw [hobject]
      exact (beq_eq_false_iff_ne.mpr hdiffer).symm

/-- The statements of a clause, without the `break` at its end, take the place of the `switch`, on
their own or as a block. -/
theorem cuts_clause {parent : NodeId} (hs : s.Sound) (ho : s.Ordered)
    (hlink : s.parent? id = some parent) (hclause : clause ∈ s.children id)
    (hbody : s.child? clause .statements = some body)
    (hlast : (s.children body).getLast? = some last) (hbreak : isPlainBreak s last) :
    let s₁ := (s.remove last).setRole body none
    Trimmed s s₁ body (some last) ∧
      (Cuts s (s₁.replaceStatement id body) id [body] (some last) ∨
        Cuts s (s₁.replaceStatement id body) id (s₁.children body) (some last)) := by
  intro s₁
  have hblock := (hs.formed body).complete.statements (role?_of_child? hbody)
  have hlastMem := List.mem_of_getLast? hlast
  have hbodyLink := hs.parent?_of_mem (mem_of_child? hbody)
  have hwithin : s.Within body id :=
    (within_of_parent hbodyLink).trans (within_of_parent (hs.parent?_of_mem hclause))
  have hne : body ≠ id := ho.toForest.ne_of_within hclause (within_of_parent hbodyLink)
  have hlastKind : s.kind last = .breakStmt :=
    (kind_view last).symm.trans (isPlainBreak_iff.mp hbreak).kind
  have hlastNil : s.children last = [] := List.eq_nil_iff_forall_not_mem.mpr fun c hc =>
    (ho.admits (hs.parent?_of_mem hc)).jump hlastKind
  have hready := (Prepared.start_remove_below ho.toForest hlink hbodyLink hwithin hne
    hlastMem).setRole hne none
  have ht : Trimmed s s₁ body (some last) :=
    .remove hs.toLinked (hs.parent?_of_mem hlastMem) hblock hlastKind hlastNil
  exact ⟨ht, (ht.cuts_replaceStatement ho.toForest hready hwithin hne).imp_right And.right⟩

/-- A `switch` that is not decided stays as it is. -/
theorem run_decideSwitch_false (h : ((decideSwitch id).run s).1 = false) :
    ((decideSwitch id).run s).2 = s := by
  revert h
  change Edit.Gives (decideSwitch id) s fun changed s' => changed = false → s' = s
  rw [decideSwitch, Edit.gives_bind, Edit.gives_get]
  split
  · exact fun _ => rfl
  · dsimp only
    split
    · exact fun htrue => absurd htrue (by simp)
    · split
      · exact fun htrue => absurd htrue (by simp)
      · exact fun htrue => absurd htrue (by simp)

section

variable (hs : s.Sound) (hseats : s.Seated) (hid : s.Within id s.root)

include hs hseats hid

variable (ho : s.Ordered)

include ho

end

end Branches

end ScriptMin
