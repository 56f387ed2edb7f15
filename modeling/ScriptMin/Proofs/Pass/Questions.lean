import Mathlib.Data.Option.Basic
import ScriptMin.Pass.Substitution
import ScriptMin.Proofs.Pass.Confinement

/-!
The questions that a tree asks about settings, told from the tree alone: what it asks about, and
what is answered if the settings have values. A call in a store that shows such a tree asks the
same question there and gets the same reply.
-/

namespace ScriptMin

namespace Store

variable {s : Store} {id : NodeId} {t : Tree} {ids : List NodeId} {ts : List Tree}

/-! ### Trees that nodes show -/

theorem showsList_iff : s.ShowsList ids ts ↔ List.Forall₂ s.Shows ids ts := by
  induction ids generalizing ts with
  | nil =>
      cases ts with
      | nil => simp [ShowsList]
      | cons t ts => simp [ShowsList]
  | cons first rest ih =>
      cases ts with
      | nil => simp [ShowsList]
      | cons t ts => rw [ShowsList, List.forall₂_cons, ih]

/-- At every position there is a node and a tree that it shows, or neither. -/
theorem ShowsList.position (h : s.ShowsList ids ts) (i : Nat) :
    (ids[i]? = none ∧ ts[i]? = none) ∨
      ∃ id t, ids[i]? = some id ∧ ts[i]? = some t ∧ s.Shows id t := by
  cases hid : ids[i]? with
  | none =>
      rw [List.getElem?_eq_none_iff, (showsList_iff.mp h).length_eq] at hid
      exact .inl ⟨rfl, List.getElem?_eq_none hid⟩
  | some id =>
      obtain ⟨t, ht, hshows⟩ := h.getElem? hid
      exact .inr ⟨id, t, rfl, ht, hshows⟩

theorem Shows.position (h : s.Shows id t) (i : Nat) :
    (s.nth? id i = none ∧ t.nth? i = none) ∨
      ∃ c child, s.nth? id i = some c ∧ t.nth? i = some child ∧ s.Shows c child :=
  h.children.position i

theorem Shows.kind_eq (h : s.Shows id t) : s.kind id = t.kind := congrArg Head.kind h.head_eq

theorem Shows.viewFrom_eq {depth : Nat} (h : s.Shows id t) (hdepth : t.depth ≤ depth + 1) :
    s.viewFrom depth id = t := by
  induction depth generalizing id t with
  | zero =>
      obtain ⟨head, children⟩ := t
      obtain rfl : children = [] := by
        rw [Tree.depth] at hdepth
        refine List.eq_nil_iff_forall_not_mem.mpr fun c hc => ?_
        have hpos := c.depth_pos
        have hle := Tree.depth_le_depthList hc
        omega
      rw [viewFrom, h.head_eq]
      rfl
  | succ depth ih =>
      obtain ⟨head, children⟩ := t
      have hchildren : (s.children id).map (s.viewFrom depth) = children := by
        have hbelow : ∀ c ∈ children, c.depth ≤ depth + 1 := by
          intro c hc
          rw [Tree.depth] at hdepth
          exact (Tree.depth_le_depthList hc).trans (by omega)
        have hshown := (List.forall₂_and_left _ _).mpr ⟨hbelow, (showsList_iff.mp h.children).flip⟩
        rw [← List.forall₂_eq_eq_eq, List.forall₂_map_left_iff]
        exact hshown.flip.imp fun c t hc => ih hc.2 hc.1
      rw [viewFrom, h.head_eq, hchildren]
      rfl

/-- The view of a node is the tree that it shows, if the store is large enough. -/
theorem Shows.view_eq (h : s.Shows id t) (hdepth : t.depth ≤ s.size) : s.view id = t :=
  h.viewFrom_eq (hdepth.trans (Nat.le_succ _))

end Store

namespace Substitution

open Store

variable {write : Data.Writer} {s : Store} {id call : NodeId} {t : Tree}

/-! ### Questions of a tree -/

/-- A question about a setting, with the arguments of the call that asks it. -/
structure Question where
  query : Query
  name : String
  args : List Tree

def argsOf (t : Tree) : List Tree := ((t.nth? 1).map Tree.children).getD []

def question? (t : Tree) : Option Question := do
  guard (t.kind == .call)
  let query ← Query.ofName? (← (← t.nth? 0).dottedName?)
  let key ← (argsOf t).head?
  guard (key.kind == .string)
  return ⟨query, key.head.text, argsOf t⟩

mutual
/-- Names of the settings that a tree asks about. -/
def asked : Tree → List String
  | .node head children =>
    ((question? (.node head children)).map (·.name)).toList ++ askedList children

def askedList : List Tree → List String
  | [] => []
  | t :: rest => asked t ++ askedList rest
end

def isLiteral (t : Tree) : Bool :=
  match t.kind with
  | .trueLit | .falseLit | .nullLit | .string => true
  | .number => t.head.number?.any Number.isFinite
  | _ => false

def keyName (key : Tree) : String :=
  match key.kind with
  | .number => (key.head.number?.map Number.literal).getD ""
  | _ => key.head.text

def branchNames (map : Tree) : List String :=
  map.children.filterMap fun property => do
    guard (property.kind == .propertyInit)
    let key ← property.nth? 0
    let _ ← property.nth? 1
    return keyName key

def Question.hasAnswer (write : Data.Writer) (q : Question) (value : Data) : Bool :=
  match q.query with
  | .value => true
  | .isSet => q.args[1]?.all isLiteral
  | .select => q.args[1]?.any fun map => map.kind == .objectInit &&
      (branchNames map).any fun name => name == branchName write value || name == "default"

/-- The question that a tree asks with the value of the setting, if the question has an answer. -/
def answer? (write : Data.Writer) (p : Permutation) (t : Tree) : Option (Query × Data) := do
  let question ← question? t
  let value ← p.get? question.name
  guard (question.hasAnswer write value)
  return (question.query, value)

mutual
/-- The questions in a tree that are answered, with the values, in order. Nothing inside a
question with an answer counts. -/
def answeredBy (write : Data.Writer) (p : Permutation) : Tree → List (Query × Data)
  | .node head children =>
    match answer? write p (.node head children) with
    | some found => [found]
    | none => answeredListBy write p children

def answeredListBy (write : Data.Writer) (p : Permutation) : List Tree → List (Query × Data)
  | [] => []
  | t :: rest => answeredBy write p t ++ answeredListBy write p rest
end

/-- The questions that are answered with values as data values are written. -/
def answered (p : Permutation) (t : Tree) : List (Query × Data) := answeredBy Data.text p t

/-- The fault in the text of an answer. Only values are put into the tree as text. -/
def textFault? (write : Data.Writer) : Query × Data → Option Fault
  | (.value, value) =>
    match parseExpression (write value) 1 with
    | .error fault => some fault
    | .ok _ => none
  | _ => none

def rejected? (write : Data.Writer) (p : Permutation) (t : Tree) : Option Fault :=
  (answeredBy write p t).findSome? (textFault? write)

theorem textFault?_eq_some_iff {found : Query × Data} {fault : Fault} :
    textFault? write found = some fault ↔
      found.1 = .value ∧ parseExpression (write found.2) 1 = .error fault := by
  obtain ⟨query, value⟩ := found
  cases query with
  | value =>
      rw [textFault?]
      cases parseExpression (write value) 1 with
      | error cause => simp
      | ok tree => simp
  | isSet => simp [textFault?]
  | select => simp [textFault?]

/-- Only the text of a value that is put into the tree is rejected. -/
theorem rejected?_eq_some {p : Permutation} {fault : Fault} (h : rejected? write p t = some fault) :
    ∃ value, (.value, value) ∈ answeredBy write p t ∧
      parseExpression (write value) 1 = .error fault := by
  obtain ⟨⟨query, value⟩, hmem, hfault⟩ := List.exists_of_findSome?_eq_some h
  obtain ⟨rfl, hvalue⟩ := textFault?_eq_some_iff.mp hfault
  exact ⟨value, hmem, hvalue⟩

theorem exists_rejected? {p : Permutation} {value : Data} {fault : Fault}
    (hmem : (.value, value) ∈ answeredBy write p t)
    (hvalue : parseExpression (write value) 1 = .error fault) :
    ∃ first, rejected? write p t = some first := by
  rw [← Option.isSome_iff_exists, rejected?, List.findSome?_isSome_iff]
  exact ⟨_, hmem, Option.isSome_iff_exists.mpr ⟨fault, textFault?_eq_some_iff.mpr ⟨rfl, hvalue⟩⟩⟩

/-! ### Questions of a store -/

def argIds (s : Store) (call : NodeId) : List NodeId := ((s.nth? call 1).map s.children).getD []

theorem showsList_argIds (h : s.Shows call t) : s.ShowsList (argIds s call) (argsOf t) := by
  rw [argIds, argsOf]
  rcases h.position 1 with ⟨hid, ht⟩ | ⟨list, child, hid, ht, hshows⟩
  · rw [hid, ht]
    exact trivial
  · rw [hid, ht]
    exact hshows.children

/-- The question that a call asks in a store is the one of the tree there. -/
theorem query?_eq (h : s.Shows call t) (hdepth : t.depth ≤ s.size) (p : Permutation) :
    query? p s call = (question? t).bind fun question =>
      (p.get? question.name).map fun value => (question.query, argIds s call, value) := by
  simp only [query?, question?, Option.bind_eq_bind, Option.bind_assoc, h.kind_eq]
  congr 1
  ext1 _
  rcases h.position 0 with ⟨hid, ht⟩ | ⟨callee, child, hid, ht, hshows⟩
  · rw [hid, ht]
    rfl
  · obtain ⟨head, children⟩ := t
    have hchild : child.depth ≤ (Tree.node head children).depth :=
      Tree.depth_le_of_mem (List.mem_of_getElem? ht)
    rw [hid, ht, Option.bind_some, Option.bind_some, hshows.view_eq (hchild.trans hdepth)]
    congr 1
    ext1 name
    congr 1
    ext1 query
    change (argIds s call).head?.bind _ = _
    rw [List.head?_eq_getElem?, List.head?_eq_getElem?]
    rcases (showsList_argIds h).position 0 with ⟨hkey, hstring⟩ | ⟨key, string, hkey, hstring, hshown⟩
    · rw [hkey, hstring]
      rfl
    · rw [hkey, hstring, Option.bind_some, Option.bind_some, hshown.kind_eq, text, hshown.head_eq]
      congr 1
      ext1 _
      exact Option.map_eq_bind.symm

theorem isSome_literalData? (h : s.Shows id t) : (literalData? s id).isSome = isLiteral t := by
  rw [literalData?, isLiteral, h.kind_eq, text, number?, h.head_eq]
  split
  all_goals simp_all

theorem keyText_eq (h : s.Shows id t) : keyText s id = keyName t := by
  rw [keyText, h.kind_eq, text, number?, h.head_eq]
  rfl

/-- The branches in a store have the names that the tree there gives them. -/
theorem map_branches (h : s.Shows id t) : (branches s id).map (·.1) = branchNames t := by
  rw [← List.forall₂_eq_eq_eq, List.forall₂_map_left_iff]
  refine List.rel_filterMap (fun property tree hproperty => ?_) (showsList_iff.mp h.children)
  rw [hproperty.kind_eq]
  by_cases hkind : (tree.kind == .propertyInit) = true
  · rw [hkind]
    rcases hproperty.position 0 with ⟨hid, ht⟩ | ⟨key, name, hid, ht, hkey⟩
    · rw [hid, ht]
      exact .none
    · rcases hproperty.position 1 with ⟨hid', ht'⟩ | ⟨value, branch, hid', ht', -⟩
      · rw [hid, ht, hid', ht']
        exact .none
      · rw [hid, ht, hid', ht']
        exact .some (keyText_eq hkey)
  · rw [Bool.not_eq_true] at hkind
    rw [hkind]
    exact .none

theorem isSome_branch? {branches : List (String × NodeId)} {wanted : String} :
    (branch? branches wanted).isSome =
      (branches.map (·.1)).any fun name => name == wanted || name == "default" := by
  rw [Bool.eq_iff_iff, branch?, Option.orElse_eq_orElse, Option.orElse_eq_or, Option.isSome_or]
  simp only [Bool.or_eq_true, List.lookup_isSome_iff, List.mem_reverse, List.any_map,
    List.any_eq_true, Function.comp_apply, beq_iff_eq]
  constructor
  · rintro (⟨branch, hmem, rfl⟩ | ⟨branch, hmem, hdefault⟩)
    · exact ⟨branch, hmem, .inl rfl⟩
    · exact ⟨branch, hmem, .inr hdefault.symm⟩
  · rintro ⟨branch, hmem, rfl | hdefault⟩
    · exact .inl ⟨branch, hmem, rfl⟩
    · exact .inr ⟨branch, hmem, hdefault.symm⟩

/-! ### Outcomes of questions -/

/-- What becomes of a question: whether it is answered, or the fault in the answer. -/
def reply (write : Data.Writer) (p : Permutation) (t : Tree) : Except PassFault Bool :=
  match answer? write p t with
  | none => .ok false
  | some found =>
    match textFault? write found with
    | some fault => .error (.text fault)
    | none => .ok true

theorem run_answer_value (args : List NodeId) (value : Data) :
    (answer write call .value args value).run.run s =
      match parseExpression (write value) 1 with
      | .error fault => (.error (.text fault), s)
      | .ok tree => (.ok (some (s.graft tree).1), (s.graft tree).2) := by
  rw [answer, Pass.run_get_bind]
  dsimp only
  cases parseExpression (write value) 1 with
  | error fault => rfl
  | ok tree => rfl

def expected? (s : Store) (args : List NodeId) : Option Data :=
  match args[1]? with
  | some arg => literalData? s arg
  | none => some (.bool true)

def verdict (s : Store) (call : NodeId) (value expected : Data) : Head where
  kind := if agrees value expected then .trueLit else .falseLit
  span := s.span call

theorem run_answer_isSet (args : List NodeId) (value : Data) :
    (answer write call .isSet args value).run.run s =
      match expected? s args with
      | none => (.ok none, s)
      | some expected =>
        (.ok (some (s.add (verdict s call value expected)).1),
          (s.add (verdict s call value expected)).2) := by
  rw [answer, Pass.run_get_bind, expected?]
  dsimp only
  cases args[1]? with
  | none => rfl
  | some arg =>
      dsimp only
      cases literalData? s arg with
      | none => rfl
      | some expected => rfl

theorem run_answer_select (args : List NodeId) (value : Data) :
    (answer write call .select args value).run.run s =
      match args[1]?.filter (fun map => s.kind map == .objectInit) with
      | none => (.ok none, s)
      | some map =>
        match branch? (branches s map) (branchName write value) with
        | none => (.ok none, s)
        | some branch => (.ok (some branch), s.remove branch) := by
  rw [answer, Pass.run_get_bind]
  dsimp only
  cases args[1]? with
  | none => rfl
  | some map =>
      by_cases hkind : s.kind map = .objectInit
      · rw [Option.filter_some_pos (by simpa using hkind)]
        dsimp only
        rw [if_neg (by simpa using hkind)]
        cases branch? (branches s map) (branchName write value) with
        | none => rfl
        | some branch => rfl
      · rw [Option.filter_some_neg (by simpa using hkind)]
        dsimp only
        rw [if_pos hkind]
        rfl

theorem map_run_answer {question : Question} {args : List NodeId}
    (hargs : s.ShowsList args question.args) (value : Data) :
    ((answer write call question.query args value).run.run s).1.map Option.isSome =
      if question.hasAnswer write value then
        match textFault? write (question.query, value) with
        | some fault => .error (.text fault)
        | none => .ok true
      else .ok false := by
  obtain ⟨query, name, trees⟩ := question
  rw [Question.hasAnswer]
  dsimp only at hargs ⊢
  cases query with
  | value =>
      rw [run_answer_value, textFault?]
      cases parseExpression (write value) 1 with
      | error fault => rfl
      | ok tree => rfl
  | isSet =>
      rw [run_answer_isSet, expected?]
      rcases hargs.position 1 with ⟨hid, ht⟩ | ⟨arg, tree, hid, ht, hshows⟩
      · rw [hid, ht]
        rfl
      · rw [hid, ht, Option.all_some, ← isSome_literalData? hshows]
        dsimp only
        cases literalData? s arg with
        | none => rfl
        | some expected => rfl
  | select =>
      rw [run_answer_select]
      rcases hargs.position 1 with ⟨hid, ht⟩ | ⟨map, tree, hid, ht, hshows⟩
      · rw [hid, ht]
        rfl
      · rw [hid, ht, Option.any_some, ← hshows.kind_eq, ← map_branches hshows, ← isSome_branch?]
        by_cases hkind : s.kind map = .objectInit
        · rw [Option.filter_some_pos (by simpa using hkind), hkind]
          dsimp only
          cases branch? (branches s map) (branchName write value) with
          | none => rfl
          | some branch => rfl
        · rw [Option.filter_some_neg (by simpa using hkind), beq_false_of_ne hkind]
          rfl

/-- Whether a call is replaced can be told from the tree. -/
theorem map_run_replacement? (h : s.Shows call t) (hdepth : t.depth ≤ s.size)
    (write : Data.Writer) (p : Permutation) :
    ((replacement? write p call).run.run s).1.map Option.isSome = reply write p t := by
  rw [replacement?, Pass.run_get_bind, query?_eq h hdepth, reply, answer?]
  cases hquestion : question? t with
  | none => rfl
  | some question =>
      have hargs : question.args = argsOf t := by
        simp only [question?, Option.bind_eq_bind, Option.bind_eq_some_iff] at hquestion
        obtain ⟨_, -, _, -, _, -, _, -, _, -, _, -, heq⟩ := hquestion
        exact (congrArg Question.args (Option.some_inj.mp heq)).symm
      simp only [Option.bind_some, Option.bind_eq_bind]
      cases p.get? question.name with
      | none => rfl
      | some value =>
          simp only [Option.map_some, Option.bind_some]
          rw [map_run_answer (by rw [hargs]; exact showsList_argIds h)]
          cases question.hasAnswer write value with
          | false => rfl
          | true => rfl

end Substitution

end ScriptMin
