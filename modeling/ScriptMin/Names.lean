/-!
Sets of names and counts per name, kept in ascending order. Names are compared by the
codes of their characters.
-/

namespace ScriptMin

abbrev NameSet := List String

namespace NameSet

def insert (name : String) : NameSet → NameSet
  | [] => [name]
  | other :: rest =>
    if name < other then name :: other :: rest
    else if name = other then other :: rest
    else other :: insert name rest

def insertAll (names : List String) (set : NameSet) : NameSet :=
  names.foldl (fun set name => insert name set) set

def ofList (names : List String) : NameSet := insertAll names []

theorem mem_insert {x name : String} {set : NameSet} :
    x ∈ insert name set ↔ x = name ∨ x ∈ set := by
  induction set with
  | nil => simp [insert]
  | cons other rest ih =>
    simp only [insert]
    split
    · simp
    · split
      · next h => subst h; simp
      · simp [ih, or_left_comm]

theorem mem_insertAll {x : String} {names : List String} {set : NameSet} :
    x ∈ insertAll names set ↔ x ∈ names ∨ x ∈ set := by
  induction names generalizing set with
  | nil => simp [insertAll]
  | cons name rest ih =>
    have h : insertAll (name :: rest) set = insertAll rest (insert name set) := rfl
    rw [h, ih, mem_insert, List.mem_cons, or_left_comm, or_assoc]

theorem mem_ofList {x : String} {names : List String} : x ∈ ofList names ↔ x ∈ names := by
  simp [ofList, mem_insertAll]

end NameSet

/-- A count per name, in ascending order of the names. -/
abbrev NameCounts := List (String × Nat)

namespace NameCounts

def add (name : String) (count : Nat) : NameCounts → NameCounts
  | [] => [(name, count)]
  | (other, n) :: rest =>
    if name < other then (name, count) :: (other, n) :: rest
    else if name = other then (other, n + count) :: rest
    else (other, n) :: add name count rest

def addAll (more counts : NameCounts) : NameCounts :=
  more.foldl (fun counts (name, count) => add name count counts) counts

def count (name : String) (counts : NameCounts) : Nat := (counts.lookup name).getD 0

def has (name : String) (counts : NameCounts) : Bool := (counts.lookup name).isSome

end NameCounts

end ScriptMin
