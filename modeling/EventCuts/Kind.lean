import EventCuts.Value

/-!
# Kinds of tokens

What a piece of an expression is: a bracket, an operator, a leaf, a value of
known shape, or nothing known. A plus or minus is ambiguous until the kind before
it tells its role.
-/

namespace EventCuts

inductive Bracket where
  | round | square
deriving DecidableEq, Repr

inductive Sign where
  | plus | minus
deriving DecidableEq, Repr

namespace Sign

def prefixOp : Sign → PrefixOp
  | plus => .plus
  | minus => .minus

def binaryOp : Sign → BinaryOp
  | plus => .add
  | minus => .sub

end Sign

inductive Kind where
  | opening (b : Bracket)
  | closing (b : Bracket)
  | number
  | identifier
  | ambiguous (sign : Sign)
  | prefixOp (op : PrefixOp)
  | binary (op : BinaryOp)
  | resolved (shape : Shape)
  | unknown
deriving DecidableEq, Repr

namespace Kind

def all : List Kind :=
  [.opening .round, .closing .round, .opening .square, .closing .square, .number, .identifier,
    .prefixOp .plus, .prefixOp .minus, .binary .add, .binary .sub, .ambiguous .plus,
    .ambiguous .minus, .binary .mul, .binary .div, .binary .rem, .binary .equal,
    .binary .notEqual, .binary .greater, .binary .less, .binary .greaterEqual,
    .binary .lessEqual, .binary .and, .binary .or, .prefixOp .not, .resolved .scalar,
    .resolved .vector, .unknown]

def name : Kind → String
  | opening .round => "OpenParen"
  | opening .square => "OpenSquare"
  | closing .round => "CloseParen"
  | closing .square => "CloseSquare"
  | number => "Number"
  | identifier => "Identifier"
  | ambiguous .plus => "AmbiguousPlus"
  | ambiguous .minus => "AmbiguousMinus"
  | prefixOp .plus => "UnaryPlus"
  | prefixOp .minus => "UnaryMinus"
  | prefixOp .not => "LogicalNot"
  | binary .mul => "Multiply"
  | binary .div => "Divide"
  | binary .rem => "Modulus"
  | binary .add => "BinaryPlus"
  | binary .sub => "BinaryMinus"
  | binary .less => "Less"
  | binary .greater => "Greater"
  | binary .lessEqual => "LessEqual"
  | binary .greaterEqual => "GreaterEqual"
  | binary .equal => "Equal"
  | binary .notEqual => "NotEqual"
  | binary .and => "LogicalAnd"
  | binary .or => "LogicalOr"
  | resolved .scalar => "ResolvedScalar"
  | resolved .vector => "ResolvedVector"
  | unknown => "Unknown"

def ofName? (text : String) : Option Kind := all.find? fun kind => kind.name == text

theorem mem_all (kind : Kind) : kind ∈ all := by
  rcases kind with ⟨⟨⟩⟩ | ⟨⟨⟩⟩ | _ | _ | ⟨⟨⟩⟩ | ⟨⟨⟩⟩ | ⟨⟨⟩⟩ | ⟨⟨⟩⟩ | _ <;> decide

def ofDigraph : Char → Char → Option Kind
  | '<', '=' => some (.binary .lessEqual)
  | '>', '=' => some (.binary .greaterEqual)
  | '!', '=' => some (.binary .notEqual)
  | '=', '=' => some (.binary .equal)
  | '&', '&' => some (.binary .and)
  | '|', '|' => some (.binary .or)
  | _, _ => none

def ofPunctuation : Char → Option Kind
  | '(' => some (.opening .round)
  | ')' => some (.closing .round)
  | '[' => some (.opening .square)
  | ']' => some (.closing .square)
  | '+' => some (.ambiguous .plus)
  | '-' => some (.ambiguous .minus)
  | '*' => some (.binary .mul)
  | '/' => some (.binary .div)
  | '%' => some (.binary .rem)
  | '<' => some (.binary .less)
  | '>' => some (.binary .greater)
  | '!' => some (.prefixOp .not)
  | _ => none

def isResolved : Kind → Bool
  | resolved _ => true
  | _ => false

def isBinary : Kind → Bool
  | binary _ => true
  | _ => false

def isPrefix : Kind → Bool
  | prefixOp _ => true
  | _ => false

def binaryOp? : Kind → Option BinaryOp
  | binary op => some op
  | _ => none

def closer : Kind → Option Kind
  | opening b => some (.closing b)
  | _ => none

def endsOperand : Kind → Bool
  | resolved _ | number | identifier | closing _ => true
  | _ => false

/-- The role of an ambiguous sign after the kind in front of it: binary behind an
operand, undecided behind something unknown, a prefix otherwise and at the start.
All other kinds keep theirs. -/
def after (kind : Kind) (previous : Option Kind) : Kind :=
  match kind with
  | ambiguous sign =>
    match previous with
    | none => .prefixOp sign.prefixOp
    | some unknown => kind
    | some before => if before.endsOperand then .binary sign.binaryOp else .prefixOp sign.prefixOp
  | _ => kind

end Kind

end EventCuts
