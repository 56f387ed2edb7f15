import ScriptMin.Proofs.Pass.Lightening

/-!
What a reduction reports depends on the tree only. In a store to which nodes have been added, every
reduction of an old node reports what it reports without them.
-/

namespace ScriptMin

open Store Edit

namespace Edit

variable {s s' : Store} {m n : Edit Bool} {α : Type} {edit : α → Edit Bool} {items : List α}

/-- An edit reports the same for two stores. -/
def Agrees (m : Edit Bool) (s s' : Store) : Prop := (m.run s').1 = (m.run s).1

theorem run_get {β : Type} (f : Store → Edit β) : (get >>= f : Edit β).run s = (f s).run s := rfl

theorem run_bind {β γ : Type} (m : Edit β) (f : β → Edit γ) (s : Store) :
    (m >>= f).run s = (f (m.run s).1).run (m.run s).2 := rfl

/-- What reports a change at its end reports it. -/
theorem report_bind {β : Type} {m : Edit β} {f : β → Edit Bool}
    (hf : ∀ b s, ((f b).run s).1 = true) (s : Store) : ((m >>= f).run s).1 = true := hf _ _

/-- Where an edit reports no change, there is none. -/
def Candid (m : Edit Bool) : Prop := ∀ s, (m.run s).1 = false → (m.run s).2 = s

/-- Two edits one after the other report the same if both of them do. -/
theorem Agrees.seq (hm : Agrees m s s') (hcandid : Candid m) (hn : Agrees n s s') :
    Agrees (do
      let a ← m
      let b ← n
      return a || b) s s' := by
  change ((m.run s').1 || (n.run (m.run s').2).1) = ((m.run s).1 || (n.run (m.run s).2).1)
  rw [hm]
  cases hreport : (m.run s).1 with
  | true => rfl
  | false => rw [hcandid s hreport, hcandid s' (hm.trans hreport), hn]

theorem Candid.seq (hm : Candid m) (hn : Candid n) : Candid (do
    let a ← m
    let b ← n
    return a || b) := by
  intro s hreport
  change ((m.run s).1 || (n.run (m.run s).2).1) = false at hreport
  obtain ⟨hfirst, hsecond⟩ := Bool.or_eq_false_iff.mp hreport
  change (n.run (m.run s).2).2 = s
  rw [hm s hfirst] at hsecond ⊢
  exact hn s hsecond

theorem candid_sweep (hedit : ∀ item ∈ items, Candid (edit item)) : Candid (sweep edit items) := by
  induction items with
  | nil => exact fun _ _ => rfl
  | cons item rest ih =>
      rw [List.forall_mem_cons] at hedit
      exact hedit.1.seq (ih hedit.2)

theorem agrees_sweep (hedit : ∀ item ∈ items, Agrees (edit item) s s')
    (hcandid : ∀ item ∈ items, Candid (edit item)) : Agrees (sweep edit items) s s' := by
  induction items with
  | nil => rfl
  | cons item rest ih =>
      rw [List.forall_mem_cons] at hedit hcandid
      exact hedit.1.seq hcandid.1 (ih hedit.2 hcandid.2)

end Edit

variable {s s' : Store} {id : NodeId}

/-! ### Expressions -/

namespace Expressions

/-- A search along a line that goes far enough finds the same however far it could go. -/
theorem startsStatement_eq (h : s.Forest) {depth depth' : Nat} (hdepth : s.lineLength id ≤ depth)
    (hdepth' : s.lineLength id ≤ depth') :
    startsStatement s depth id = startsStatement s depth' id := by
  induction depth generalizing depth' id with
  | zero =>
      cases depth' with
      | zero => rfl
      | succ depth' =>
          cases hp : s.parent? id with
          | none => rw [startsStatement, startsStatement, hp]
          | some p =>
              have hpos := h.lineLength_lt hp
              omega
  | succ depth ih =>
      cases hp : s.parent? id with
      | none =>
          cases depth' <;> simp only [startsStatement, hp]
      | some p =>
          have hlt := h.lineLength_lt hp
          cases depth' with
          | zero => omega
          | succ depth' =>
              rw [startsStatement, startsStatement, hp]
              dsimp only
              have hbelow : startsStatement s depth p = startsStatement s depth' p :=
                ih (by omega) (by omega)
              rw [hbelow]

theorem startsStatement_grows (h : Grows s s') (hs : s.Forest) (hid : id < s.size) (depth : Nat) :
    startsStatement s' depth id = startsStatement s depth id := by
  induction depth generalizing id with
  | zero => rfl
  | succ depth ih =>
      rw [startsStatement, startsStatement, h.parent?_eq hid, h.indexOf?_eq hs.toLinked hid]
      cases hp : s.parent? id with
      | none => rfl
      | some p =>
          have hlt := hs.parent_lt hp
          dsimp only
          rw [h.kind_eq hlt, h.head_eq hlt, h.flags_eq hlt, ih hlt]

theorem needsParens_eq (h : Grows s s') (hs : s.Forest) (hid : id < s.size) :
    needsParens s' id = needsParens s id := by
  have hstarts : startsStatement s' s'.size id = startsStatement s s.size id := by
    rw [startsStatement_grows h hs hid]
    exact startsStatement_eq hs (lineLength_le_size.trans h.size_le) lineLength_le_size
  rw [needsParens, needsParens, isCallee, isCallee, isChainStart, isChainStart, hstarts,
    h.kind_eq hid, h.parentKind?_eq hs.toLinked hid, h.indexOf?_eq hs.toLinked hid]

theorem candid_removeParens : Candid (removeParens id) := by
  intro s
  rw [removeParens, run_get]
  split
  · exact fun hreport => Bool.noConfusion hreport
  · exact fun _ => rfl

theorem agrees_removeParens (h : Grows s s') (hs : s.Forest) (hid : id < s.size) :
    Agrees (removeParens id) s s' := by
  rw [Agrees, removeParens, run_get, run_get, h.flags_eq hid, needsParens_eq h hs hid]
  split <;> rfl

theorem agrees_foldNegation (h : Grows s s') (hs : s.Forest) (hid : id < s.size) :
    Agrees (foldNegation id) s s' := by
  rw [Agrees, foldNegation, run_get, run_get, h.nth?_eq hid]
  cases hoperand : s.nth? id 0 with
  | none => rfl
  | some operand =>
      have hlt := hs.toLinked.child_lt (mem_of_nth? hoperand)
      dsimp only
      rw [h.kind_eq hlt, h.flags_eq hid, number?, number?, h.head_eq hlt]
      split
      · rfl
      · split
        · rfl
        · split <;> rfl

theorem agrees_foldLiterals (h : Grows s s') (hs : s.Forest) (hs' : s'.Forest) (hid : id < s.size) :
    Agrees (foldLiterals id) s s' := by
  have hsize : s'.textSize id = s.textSize id := by
    rw [textSize, textSize, h.render_eq hs hs' hid]
  rw [Agrees, foldLiterals, run_get, run_get, h.nth?_eq hid, h.nth?_eq hid]
  cases hleft : s.nth? id 0 with
  | none => rfl
  | some left =>
      cases hright : s.nth? id 1 with
      | none => rfl
      | some right =>
          have hlt := hs.toLinked.child_lt (mem_of_nth? hleft)
          have hlt' := hs.toLinked.child_lt (mem_of_nth? hright)
          dsimp only
          rw [h.kind_eq hlt, h.kind_eq hlt']
          split
          · rw [foldNumbers, run_get, run_get, h.kind_eq hid, number?, number?, number?, number?,
              h.head_eq hlt, h.head_eq hlt', hsize]
            dsimp only
            split
            · rfl
            · split <;> rfl
          · rw [foldStrings, run_get, run_get, h.kind_eq hid, Store.text, Store.text, Store.text,
              Store.text, h.head_eq hlt, h.head_eq hlt', hsize]
            dsimp only
            split <;> rfl
          · rfl

end Expressions

/-! ### Conditions -/

namespace Conditions

variable {condition thenPart elsePart first second : NodeId}

theorem leavesFunction_eq (h : Grows s s') (hs : s.Forest) (hs' : s'.Forest)
    (hid : id < s.size) : leavesFunction s' id = leavesFunction s id := by
  rw [← leavesFunction_view hs, ← leavesFunction_view hs', h.view_eq hs hs' hid]

theorem returnedValues?_eq (h : Grows s s') (hs : s.Linked) (hthen : thenPart < s.size)
    (helse : elsePart < s.size) :
    returnedValues? s' thenPart elsePart = returnedValues? s thenPart elsePart := by
  rw [returnedValues?, returnedValues?, h.kind_eq hthen, h.kind_eq helse, h.child?_eq hs hthen,
    h.child?_eq hs helse]

theorem branchExpressions?_eq (h : Grows s s') (hs : s.Linked) (hthen : thenPart < s.size)
    (helse : elsePart < s.size) :
    branchExpressions? s' thenPart elsePart = branchExpressions? s thenPart elsePart := by
  rw [branchExpressions?, branchExpressions?, h.expressionOf?_eq hs hthen,
    h.expressionOf?_eq hs helse]

theorem agrees_liftElse (h : Grows s s') (hs : s.Forest) (hs' : s'.Forest) (hid : id < s.size)
    (hthen : thenPart < s.size) (helse : elsePart < s.size) :
    Agrees (liftElse id thenPart elsePart) s s' := by
  rw [Agrees, liftElse, run_get, run_get, h.inStatementList_eq hs.toLinked hid,
    leavesFunction_eq h hs hs' hthen, h.kind_eq helse, h.declaresBlockNames_eq hs.toLinked helse]
  split
  · split
    · split <;> rfl
    · rfl
  · rfl

/-- Whether the logical expression is shorter can be seen from the tree. -/
theorem shortens_iff (h : Grows s s') (hs : s.Forest) (hs' : s'.Forest) (hid : id < s.size)
    (hcondition : condition < s.size) (hthen : thenPart < s.size) :
    Shortens s' id condition thenPart ↔ Shortens s id condition thenPart := by
  have hform : logicalForm s' condition = logicalForm s condition := by
    rw [logicalForm, logicalForm, h.kind_eq hcondition, h.flags_eq hcondition,
      h.nth?_eq hcondition]
  have hsize : s'.textSize id = s.textSize id := by
    rw [textSize, textSize, h.render_eq hs hs' hid]
  have hspan : s'.span id = s.span id := congrArg Head.span (h.head_eq hid)
  rw [Shortens, Shortens, h.expressionOf?_eq hs.toLinked hthen, hform, hsize, hspan]
  refine exists_congr fun expression => exists_congr fun kind => exists_congr fun left =>
    and_congr_right fun hexpression => and_congr_right fun hleft => ?_
  have hlt := hs.toLinked.child_lt (mem_of_expressionOf? hexpression)
  have hlt' : left < s.size := by
    rw [logicalForm] at hleft
    split at hleft
    · obtain ⟨operand, hoperand, heq⟩ := Option.map_eq_some_iff.mp hleft
      obtain ⟨-, rfl⟩ := Prod.mk.inj heq
      exact hs.toLinked.child_lt (mem_of_nth? hoperand)
    · obtain ⟨-, rfl⟩ := Prod.mk.inj (Option.some_inj.mp hleft)
      exact hcondition
  rw [h.view_eq hs hs' hlt, h.view_eq hs hs' hlt']

theorem agrees_reduceIf (h : Grows s s') (hs : s.Forest) (hs' : s'.Forest) {parent : NodeId}
    (hlink : s.parent? id = some parent) : Agrees (reduceIf id) s s' := by
  have hid := parent?_lt hlink
  have hchild := fun role => h.child?_eq hs.toLinked hid role
  rw [Agrees, reduceIf, run_get, run_get, hchild, hchild, hchild]
  cases hcondition : s.child? id .condition with
  | none => rfl
  | some condition =>
      cases hthen : s.child? id .thenPart with
      | none => rfl
      | some thenPart =>
          have hcond := hs.toLinked.child_lt (mem_of_child? hcondition)
          have hlt := hs.toLinked.child_lt (mem_of_child? hthen)
          cases helse : s.child? id .elsePart with
          | none =>
              have hreport := (gives_toLogical hs hlink hcondition hthen).2
              have hreport' := (gives_toLogical hs' (by rw [h.parent?_eq hid, hlink])
                (by rw [hchild, hcondition]) (by rw [hchild, hthen])).2
              rw [shortens_iff h hs hs' hid hcond hlt] at hreport'
              exact Bool.eq_iff_iff.mpr (hreport'.trans hreport.symm)
          | some elsePart =>
              have hlt' := hs.toLinked.child_lt (mem_of_child? helse)
              dsimp only
              rw [reduceBranches, run_get, run_get, returnedValues?_eq h hs.toLinked hlt hlt',
                branchExpressions?_eq h hs.toLinked hlt hlt']
              split
              · rw [report_bind fun _ _ => rfl, report_bind fun _ _ => rfl]
              · split
                · rw [report_bind fun _ _ => rfl, report_bind fun _ _ => rfl]
                · exact agrees_liftElse h hs hs' hid hlt hlt'

end Conditions

/-! ### Blocks -/

namespace Blocks

variable {list previous : NodeId} {rest : List NodeId}

theorem candid_dissolve : Candid (dissolve id) := by
  intro s
  rw [dissolve, run_get]
  split
  · split
    · exact fun hreport => Bool.noConfusion hreport
    · exact fun _ => rfl
  · split
    · exact fun _ => rfl
    · exact fun hreport => Bool.noConfusion hreport
  · exact fun _ => rfl

theorem agrees_dissolve (h : Grows s s') (hs : s.Linked) (hid : id < s.size) :
    Agrees (dissolve id) s s' := by
  have hfunction : containsFunction s' id = containsFunction s id :=
    h.any_kind_eq hs hid (· == .function)
  rw [Agrees, dissolve, run_get, run_get, h.kind_eq hid, h.child?_eq hs hid,
    h.declaresBlockNames_eq hs hid, hfunction]
  split
  · split <;> rfl
  · split <;> rfl
  · rfl

theorem candid_mergeInto : Candid (mergeInto previous rest) := by
  induction rest generalizing previous with
  | nil => exact fun _ _ => rfl
  | cons current rest ih =>
      intro s
      rw [mergeInto, run_get]
      split
      · exact fun hreport => Bool.noConfusion hreport
      · exact ih s

theorem agrees_mergeInto (h : Grows s s') (hs : s.Linked) (hprevious : previous < s.size)
    (hrest : ∀ x ∈ rest, x < s.size) : Agrees (mergeInto previous rest) s s' := by
  induction rest generalizing previous with
  | nil => rfl
  | cons current rest ih =>
      rw [List.forall_mem_cons] at hrest
      rw [Agrees, mergeInto, run_get, run_get, h.expressionOf?_eq hs hprevious,
        h.expressionOf?_eq hs hrest.1]
      split
      · rw [report_bind fun _ => report_bind fun _ => report_bind fun _ _ => rfl,
          report_bind fun _ => report_bind fun _ => report_bind fun _ _ => rfl]
      · exact ih hrest.1 hrest.2

def mergeList (list : NodeId) : Edit Bool := do
  match (← get).children list with
  | [] => return false
  | first :: rest => mergeInto first rest

/-- The statements of a list are dissolved, and then merged. -/
theorem reduceList_run (s : Store) : (reduceList list).run s = (do
    let dissolved ← sweep dissolve (s.children list)
    let merged ← mergeList list
    return dissolved || merged : Edit Bool).run s := by
  rw [reduceList, run_get, run_bind (sweep _ _), run_get, run_bind (sweep _ _),
    run_bind (mergeList _), mergeList, run_get]
  cases ((sweep dissolve (s.children list)).run s).2.children list with
  | nil => exact congrArg (·, _) (Bool.or_false _).symm
  | cons => rfl

theorem candid_mergeList : Candid (mergeList list) := by
  intro s
  rw [mergeList, run_get]
  split
  · exact fun _ => rfl
  · exact candid_mergeInto s

theorem agrees_mergeList (h : Grows s s') (hs : s.Linked) (hid : list < s.size) :
    Agrees (mergeList list) s s' := by
  rw [Agrees, mergeList, run_get, run_get, h.children_eq hid]
  split
  case h_1 => rfl
  case h_2 first rest hchildren =>
      have hlt : ∀ c ∈ first :: rest, c < s.size := fun c hc => hs.child_lt (hchildren ▸ hc)
      rw [List.forall_mem_cons] at hlt
      exact agrees_mergeInto h hs hlt.1 hlt.2

theorem candid_reduceList : Candid (reduceList list) := by
  intro s
  rw [reduceList_run]
  exact (candid_sweep fun _ _ => candid_dissolve).seq candid_mergeList s

theorem agrees_reduceList (h : Grows s s') (hs : s.Linked) (hid : list < s.size) :
    Agrees (reduceList list) s s' := by
  rw [Agrees, reduceList_run, reduceList_run, h.children_eq hid]
  have hsweep : Agrees (sweep dissolve (s.children list)) s s' :=
    agrees_sweep (fun c hc => agrees_dissolve h hs (hs.child_lt hc)) fun _ _ => candid_dissolve
  exact hsweep.seq (candid_sweep fun _ _ => candid_dissolve) (agrees_mergeList h hs hid)

theorem agrees_collapse (h : Grows s s') (hs : s.Forest) (hs' : s'.Forest) (hid : id < s.size) :
    Agrees (collapse id) s s' := by
  have hposition : inStatementPosition s' id = inStatementPosition s id := by
    rw [inStatementPosition, inStatementPosition, h.parentKind?_eq hs.toLinked hid, h.role?_eq hid]
  rw [Agrees, collapse, run_get, run_get, hposition, h.children_eq hid]
  split
  · rfl
  · cases hchildren : s.children id with
    | nil => rfl
    | cons statement rest =>
        cases rest with
        | cons => rfl
        | nil =>
            have hlt : statement < s.size := hs.toLinked.child_lt (by rw [hchildren]; simp)
            have hdangle : wouldDangle s' id statement = wouldDangle s id statement := by
              rw [wouldDangle, wouldDangle, h.role?_eq hid, h.parent?_eq hid,
                h.view_eq hs hs' hlt]
              cases hp : s.parent? id with
              | none => rfl
              | some p =>
                  rw [Option.bind_some, Option.bind_some,
                    h.child?_eq hs.toLinked (hs.parent_lt hp)]
            dsimp only
            rw [h.kind_eq hlt, hdangle]
            split <;> split <;> rfl

theorem agrees_reduceForm (h : Grows s s') (hs : s.Forest) (hs' : s'.Forest) (hid : id < s.size)
    (hif : s.kind id = .ifElse → ∃ parent, s.parent? id = some parent) :
    Agrees (reduceForm id) s s' := by
  rw [Agrees, reduceForm, run_get, run_get, h.kind_eq hid]
  split
  case h_1 => exact agrees_reduceList h hs.toLinked hid
  case h_2 =>
      exact (agrees_reduceList h hs.toLinked hid).seq candid_reduceList
        (agrees_collapse h hs hs' hid)
  case h_3 hkind =>
      obtain ⟨parent, hlink⟩ := hif hkind
      exact Conditions.agrees_reduceIf h hs hs' hlink
  case h_4 => exact Expressions.agrees_foldNegation h hs hid
  case h_5 =>
      split
      · exact Expressions.agrees_foldLiterals h hs hs' hid
      · rfl

theorem agrees_reduceNode (h : Grows s s') (hs : s.Forest) (hs' : s'.Forest) (hid : id < s.size)
    (hif : s.kind id = .ifElse → ∃ parent, s.parent? id = some parent) :
    Agrees (reduceNode id) s s' :=
  (Expressions.agrees_removeParens h hs hid).seq Expressions.candid_removeParens
    (agrees_reduceForm h hs hs' hid hif)

end Blocks

end ScriptMin
