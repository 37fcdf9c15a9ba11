/-!
# The extent of a numeric literal

How far a literal reaches at the front of a text: decimal digits with an optional
fraction and exponent, or `0x` with hexadecimal digits and an optional binary
exponent. A sign never belongs to a literal, and an exponent mark without digits
is left to whatever follows.
-/

namespace EventCuts.Literal

def isDigit (c : Char) : Bool := '0' ≤ c && c ≤ '9'

def isHexDigit (c : Char) : Bool :=
  isDigit c || ('a' ≤ c && c ≤ 'f') || ('A' ≤ c && c ≤ 'F')

def isSign (c : Char) : Bool := c == '+' || c == '-'

def isDecimalMark (c : Char) : Bool := c == 'e' || c == 'E'

def isBinaryMark (c : Char) : Bool := c == 'p' || c == 'P'

def isHexMark (c : Char) : Bool := c == 'x' || c == 'X'

def run (accepts : Char → Bool) (text : List Char) : Nat := (text.takeWhile accepts).length

def signLength : List Char → Nat
  | c :: _ => if isSign c then 1 else 0
  | [] => 0

def exponentLength (isMark : Char → Bool) : List Char → Nat
  | [] => 0
  | c :: rest =>
    if isMark c then
      match run isDigit (rest.drop (signLength rest)) with
      | 0 => 0
      | digits => 1 + signLength rest + digits
    else 0

def mantissaLength (accepts : Char → Bool) (text : List Char) : Option Nat :=
  let whole := run accepts text
  match text.drop whole with
  | '.' :: rest =>
    let fraction := run accepts rest
    if whole + fraction = 0 then none else some (whole + 1 + fraction)
  | _ => if whole = 0 then none else some whole

def decimalLength (text : List Char) : Nat :=
  match mantissaLength isDigit text with
  | some length => length + exponentLength isDecimalMark (text.drop length)
  | none => 0

/-- Absent when no hexadecimal digit follows the `0x`, so that `0xg` starts with the literal `0`. -/
def hexLength : List Char → Option Nat
  | '0' :: x :: rest =>
    if isHexMark x then
      (mantissaLength isHexDigit rest).map fun length =>
        2 + (length + exponentLength isBinaryMark (rest.drop length))
    else none
  | _ => none

def length (text : List Char) : Nat := (hexLength text).getD (decimalLength text)

theorem run_le_length (accepts : Char → Bool) (text : List Char) :
    run accepts text ≤ text.length :=
  (List.takeWhile_sublist accepts).length_le

end EventCuts.Literal
