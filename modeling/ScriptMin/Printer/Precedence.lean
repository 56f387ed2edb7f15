import ScriptMin.Tree.Kind

/-!
How tightly expressions bind. An expression needs parentheses where its own number is
below the one its place requires.
-/

namespace ScriptMin.Precedence

def comma : Nat := 1

def assignment : Nat := 2

def conditional : Nat := 3

def unary : Nat := 14

def trailing : Nat := 15

def newBare : Nat := 16

def member : Nat := 17

def primary : Nat := 18

def of : Kind → Nat
  | .comma => comma
  | .assign | .yieldOf | .letBlock => assignment
  | .conditional => conditional
  | .or => 4
  | .and => 5
  | .bitOr => 6
  | .bitXor => 7
  | .bitAnd => 8
  | .eq | .ne | .strictEq | .strictNe => 9
  | .lt | .le | .gt | .ge | .isIn | .instanceOf => 10
  | .shiftLeft | .shiftRight | .shiftRightZero => 11
  | .plus | .minus => 12
  | .times | .divide | .modulo => 13
  | .not | .bitNot | .unaryPlus | .unaryMinus | .typeOf | .voidOf | .delete => unary
  | .increment | .decrement => unary
  | .newBare => newBare
  | .dot | .index | .call | .newArgs => member
  | _ => primary

/-- What the operands of a binary operator have to bind at least. Binary operators
associate to the left, so the right operand binds tighter. -/
def operands (kind : Kind) : Nat × Nat := (of kind, of kind + 1)

end ScriptMin.Precedence
