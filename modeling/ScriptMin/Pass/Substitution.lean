import ScriptMin.Grammar.Parse
import ScriptMin.Pass.Basic
import ScriptMin.Permutation
import ScriptMin.Text.Names

/-!
Answers to the questions a script asks about build settings:

* `core.Env.getValue(name)` is replaced by the value of the setting;
* `core.Env.isSet(name, expected)` by whether it is the expected one;
* `core.Env.select(name, branches)` by the branch for it.

Questions about settings without a value stay.
-/

namespace ScriptMin.Substitution

inductive Query where
  | value
  | isSet
  | select
  deriving DecidableEq, Repr

/-- The question that calling a dotted name asks. -/
def Query.ofName? : String → Option Query
  | "core.Env.getValue" => some .value
  | "core.Env.isSet" => some .isSet
  | "core.Env.select" => some .select
  | _ => none

def literalData? (s : Store) (id : NodeId) : Option Data :=
  match s.kind id with
  | .trueLit => some (.bool true)
  | .falseLit => some (.bool false)
  | .nullLit => some .null
  | .string => some (.string (s.text id))
  | .number => ((s.number? id).filter Number.isFinite).map .float
  | _ => none

/-- Whether a value is an expected one. An expected text can list alternatives. -/
def agrees : Data → Data → Bool
  | .string value, .string expected =>
    (Text.splitChars '|' expected.toList).any fun option => String.ofList option == value
  | .bool value, .bool expected => value == expected
  | .null, .null => true
  | value, expected =>
    match value.number?, expected.number? with
    | some a, some b => a.eqv b
    | _, _ => false

/-- Text under which a branch for a value is found. -/
def branchName (write : Data.Writer) : Data → String
  | .string text => text
  | value => write value

def keyText (s : Store) (key : NodeId) : String :=
  match s.kind key with
  | .number => ((s.number? key).map Number.literal).getD ""
  | _ => s.text key

def branches (s : Store) (map : NodeId) : List (String × NodeId) :=
  (s.children map).filterMap fun property => do
    guard (s.kind property == .propertyInit)
    return (keyText s (← s.nth? property 0), ← s.nth? property 1)

/-- The branch with a name: the first one, or the last one named `default`. -/
def branch? (branches : List (String × NodeId)) (wanted : String) : Option NodeId :=
  branches.lookup wanted <|> branches.reverse.lookup "default"

def answer (write : Data.Writer) (call : NodeId) (query : Query) (args : List NodeId)
    (value : Data) : Pass (Option NodeId) := do
  let s ← get
  match query with
  | .value =>
    match parseExpression (write value) 1 with
    | .error fault => throw (.text fault)
    | .ok tree =>
      let (id, s) := s.graft tree
      set s
      return some id
  | .isSet =>
    let expected := match args[1]? with
      | some arg => literalData? s arg
      | none => some (.bool true)
    match expected with
    | none => return none
    | some expected =>
      let kind := if agrees value expected then .trueLit else .falseLit
      let (id, s) := s.add { kind, span := s.span call }
      set s
      return some id
  | .select =>
    match args[1]? with
    | none => return none
    | some map =>
      if s.kind map ≠ .objectInit then return none
      let branch := branch? (branches s map) (branchName write value)
      match branch with
      | some id => set (s.remove id)
      | none => pure ()
      return branch

/-- The question that a call asks, its arguments, and the value it asks about. -/
def query? (p : Permutation) (s : Store) (call : NodeId) :
    Option (Query × List NodeId × Data) := do
  guard (s.kind call == .call)
  let callee ← s.nth? call 0
  let query ← Query.ofName? (← (s.view callee).dottedName?)
  let args := ((s.nth? call 1).map s.children).getD []
  let key ← args.head?
  guard (s.kind key == .string)
  let value ← p.get? (s.text key)
  return (query, args, value)

/-- The node that replaces a call, if the call asks a question with an answer. -/
def replacement? (write : Data.Writer) (p : Permutation) (call : NodeId) : Pass (Option NodeId) := do
  match query? p (← get) call with
  | none => return none
  | some (query, args, value) => answer write call query args value

/-- Answers the questions at a node and below. What replaces a question is not looked
into. -/
def visit (write : Data.Writer) (p : Permutation) : Nat → NodeId → Pass Bool
  | 0, _ => return false
  | depth + 1, id => do
    match ← replacement? write p id with
    | some new =>
      modify (Store.replace id new)
      return true
    | none => sweep (visit write p depth) ((← get).children id)

end ScriptMin.Substitution

namespace ScriptMin

/-- Answers the questions of a script about settings. Values are put into the script as they are
written. -/
def substituteBy (write : Data.Writer) (p : Permutation) : Pass Bool := do
  if p.isEmpty then return false
  let s ← get
  Substitution.visit write p (s.size + 1) s.root

def substitute (p : Permutation) : Pass Bool := substituteBy Data.text p

end ScriptMin
