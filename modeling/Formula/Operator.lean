/-!
# The five operator characters

`+` and `-` are signs as well as binary operators; which of the two they are is decided where the
formula is read, not here.
-/

namespace Formula

/-- An arithmetic operator, by its character. -/
inductive Operator where
  | plus
  | minus
  | star
  | slash
  | caret
  deriving DecidableEq, Repr

namespace Operator

/-- The character of an operator. -/
def symbol : Operator → Char
  | plus => '+'
  | minus => '-'
  | star => '*'
  | slash => '/'
  | caret => '^'

/-- The operator of a character. -/
def ofSymbol? : Char → Option Operator
  | '+' => some plus
  | '-' => some minus
  | '*' => some star
  | '/' => some slash
  | '^' => some caret
  | _ => none

@[simp] theorem ofSymbol?_symbol (op : Operator) : ofSymbol? op.symbol = some op := by
  cases op <;> rfl

/-- The operators that can also stand in front of an operand. -/
def isSign : Operator → Bool
  | plus => true
  | minus => true
  | _ => false

end Operator
end Formula
