import EventCuts.Number.Decimal
import EventCuts.Number.Literal

/-!
# Reading numbers

The value of a numeric text. Decimal texts are rounded once, from their exact
value. Hexadecimal ones are summed up digit by digit in a given arithmetic, so
that the sum can be taken in floats and in exact fractions alike.
-/

namespace EventCuts

open Literal (isDigit isHexDigit isSign isDecimalMark isBinaryMark)

structure Arithmetic (α : Type) where
  ofNat : Nat → α
  add : α → α → α
  mul : α → α → α
  div : α → α → α
  twoPow : Int → α

namespace Arithmetic

/-- A power of two that lies above the range is infinite, and so is the divisor of
one that lies below `2 ^ -1023`. -/
def float : Arithmetic Float where
  ofNat n := Exact.nearest false (n * Exact.stepsInOne) 1
  add x y := x + y
  mul x y := x * y
  div x y := x / y
  twoPow
    | .ofNat n => Exact.packSteps false (Nat.pow 2 52) (n + 1022)
    | .negSucc n =>
      Exact.nearest false Exact.stepsInOne 1 / Exact.packSteps false (Nat.pow 2 52) (n + 1 + 1022)

def rational : Arithmetic Rat where
  ofNat n := n
  add x y := x + y
  mul x y := x * y
  div x y := x / y
  twoPow
    | .ofNat n => 2 ^ n
    | .negSucc n => 1 / 2 ^ (n + 1)

variable {α : Type}

def wholeValue (a : Arithmetic α) (digits : List Nat) : α :=
  digits.foldl (fun value digit => a.add (a.mul value (a.ofNat 16)) (a.ofNat digit)) (a.ofNat 0)

def addFraction (a : Arithmetic α) : List Nat → (scale value : α) → α
  | [], _, value => value
  | digit :: rest, scale, value =>
    addFraction a rest (a.div scale (a.ofNat 16)) (a.add value (a.mul (a.ofNat digit) scale))

def hexValue (a : Arithmetic α) (whole fraction : List Nat) (exponent : Int) : α :=
  let scale := a.div (a.ofNat 1) (a.ofNat 16)
  a.mul (a.addFraction fraction scale (a.wholeValue whole)) (a.twoPow exponent)

end Arithmetic

namespace Reading

def digitValue (c : Char) : Nat :=
  if isDigit c then c.toNat - '0'.toNat
  else if 'a' ≤ c then c.toNat - 'a'.toNat + 10
  else c.toNat - 'A'.toNat + 10

def natValue (digits : List Char) : Nat :=
  digits.foldl (fun value c => value * 10 + digitValue c) 0

def digits? (text : List Char) : Option Nat :=
  if text ≠ [] ∧ text.all isDigit then some (natValue text) else none

def int? : List Char → Option Int
  | '+' :: rest => (digits? rest).map fun n => (n : Int)
  | '-' :: rest => (digits? rest).map fun n => -(n : Int)
  | text => (digits? text).map fun n => (n : Int)

def splitAtMark (isMark : Char → Bool) (text : List Char) : List Char × Option (List Char) :=
  match text.dropWhile fun c => !isMark c with
  | _ :: rest => (text.takeWhile fun c => !isMark c, some rest)
  | [] => (text, none)

def exponent? : Option (List Char) → Option Int
  | none => some 0
  | some text => int? text

def decimal? (text : List Char) : Option Decimal :=
  let (mantissa, exponent) := splitAtMark isDecimalMark text
  let (whole, fraction) := splitAtMark (· == '.') mantissa
  let places := fraction.getD []
  match digits? (whole ++ places), exponent? exponent with
  | some digits, some exponent => some ⟨digits, exponent - places.length⟩
  | _, _ => none

def unsigned? (negative : Bool) (text : List Char) : Option Float :=
  let name := String.ofList (text.map Char.toLower)
  if name = "inf" ∨ name = "infinity" then some (Exact.infinity negative)
  else if name = "nan" then some Exact.undefined
  else (decimal? text).map (Decimal.toFloat negative)

def signed? : List Char → Option Float
  | '+' :: rest => unsigned? false rest
  | '-' :: rest => unsigned? true rest
  | text => unsigned? false text

def fitsBinaryExponent (exponent : Int) : Bool :=
  Int32.minValue.toInt ≤ exponent && exponent ≤ Int32.maxValue.toInt

def hexParts? (text : List Char) : Option (List Nat × List Nat × Int) :=
  let (mantissa, exponent) := splitAtMark isBinaryMark text
  let (whole, fraction) := splitAtMark (· == '.') mantissa
  let places := fraction.getD []
  match exponent? exponent with
  | some exponent =>
    if fitsBinaryExponent exponent && (whole ++ places).all isHexDigit then
      some (whole.map digitValue, places.map digitValue, exponent)
    else none
  | none => none

def hex? {α : Type} (a : Arithmetic α) (text : List Char) : Option α :=
  (hexParts? text).map fun (whole, fraction, exponent) => a.hexValue whole fraction exponent

def chars? : List Char → Option Float
  | '0' :: 'x' :: rest => hex? .float rest
  | '0' :: 'X' :: rest => hex? .float rest
  | text => signed? text

end Reading

def readNumber (text : String) : Option Float := Reading.chars? text.toList

end EventCuts
