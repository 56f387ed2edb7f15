import ScriptMin.Tree.Basic

/-!
What is known of the truth of a condition without running it.
-/

namespace ScriptMin.Tree

/-- Equality of two literals, if they are of a kind that is compared. -/
def literalsEqual? (left right : Tree) : Option Bool :=
  match left.kind, right.kind with
  | .string, .string => some (left.head.text == right.head.text)
  | .number, .number => do return (← left.head.number?).eqv (← right.head.number?)
  | .trueLit, .trueLit | .falseLit, .falseLit | .nullLit, .nullLit => some true
  | .trueLit, .falseLit | .falseLit, .trueLit => some false
  | _, _ => none

def operandsEqual? : List Tree → Option Bool
  | left :: right :: _ => literalsEqual? left right
  | _ => none

def bothHold : Option Bool → Option Bool → Option Bool
  | some false, _ | _, some false => some false
  | some true, some true => some true
  | _, _ => none

def eitherHolds : Option Bool → Option Bool → Option Bool
  | some true, _ | _, some true => some true
  | some false, some false => some false
  | _, _ => none

mutual
def truth? : Tree → Option Bool
  | .node head children =>
    match head.kind with
    | .trueLit => some true
    | .falseLit => some false
    | .not => (firstTruth? children).map (!·)
    | .and => bothHold (firstTruth? children) (secondTruth? children)
    | .or => eitherHolds (firstTruth? children) (secondTruth? children)
    | .eq | .strictEq => operandsEqual? children
    | .ne | .strictNe => (operandsEqual? children).map (!·)
    | _ => none

def firstTruth? : List Tree → Option Bool
  | [] => none
  | t :: _ => truth? t

def secondTruth? : List Tree → Option Bool
  | [] => none
  | _ :: rest => firstTruth? rest
end

end ScriptMin.Tree
