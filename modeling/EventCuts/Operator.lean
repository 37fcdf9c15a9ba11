import EventCuts.Number.Exact

/-!
# Operators

The prefix and binary operators on floats. Comparisons and logic answer with the
floats one and zero; any float but a zero counts as true, so also what is not a number.
-/

namespace EventCuts

inductive PrefixOp where
  | plus | minus | not
deriving DecidableEq, Repr

inductive BinaryOp where
  | mul | div | rem
  | add | sub
  | less | greater | lessEqual | greaterEqual
  | equal | notEqual
  | and | or
deriving DecidableEq, Repr

def flag (b : Bool) : Float := if b then 1 else 0

def isTrue (x : Float) : Bool := x != 0

namespace PrefixOp

def symbol : PrefixOp → String
  | plus => "+"
  | minus => "-"
  | not => "!"

def apply : PrefixOp → Float → Float
  | plus, x => x
  | minus, x => -x
  | not, x => flag (!isTrue x)

end PrefixOp

namespace BinaryOp

def symbol : BinaryOp → String
  | mul => "*"
  | div => "/"
  | rem => "%"
  | add => "+"
  | sub => "-"
  | less => "<"
  | greater => ">"
  | lessEqual => "<="
  | greaterEqual => ">="
  | equal => "=="
  | notEqual => "!="
  | and => "&&"
  | or => "||"

def apply : BinaryOp → Float → Float → Float
  | mul, x, y => x * y
  | div, x, y => x / y
  | rem, x, y => Exact.remainder x y
  | add, x, y => x + y
  | sub, x, y => x - y
  | less, x, y => flag (x < y)
  | greater, x, y => flag (y < x)
  | lessEqual, x, y => flag (x ≤ y)
  | greaterEqual, x, y => flag (y ≤ x)
  | equal, x, y => flag (x == y)
  | notEqual, x, y => flag (x != y)
  | and, x, y => flag (isTrue x && isTrue y)
  | or, x, y => flag (isTrue x || isTrue y)

/-- The answer that the left operand of a logical operator settles on its own. -/
def decided : BinaryOp → Float → Option Float
  | and, x => if isTrue x then none else some (flag false)
  | or, x => if isTrue x then some (flag true) else none
  | _, _ => none

theorem apply_of_decided {op : BinaryOp} {x r : Float} (h : op.decided x = some r) (y : Float) :
    op.apply x y = r := by
  cases op <;> simp only [decided] at h <;> grind [apply]

def precedence : List (List BinaryOp) :=
  [[mul, div, rem], [add, sub], [less, greater, lessEqual, greaterEqual], [equal, notEqual],
    [and], [or]]

end BinaryOp

end EventCuts
