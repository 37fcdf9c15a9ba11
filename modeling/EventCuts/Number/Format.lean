import EventCuts.Number.Decimal

/-!
# Float texts

One layout function and a record of decisions. Three texts are in use: plain
text for messages and names, listing text for the entries of a vector, and JSON.
-/

namespace EventCuts

structure FloatFormat where
  tie : Tie
  /-- exponents of the leading digit, lower end included and upper end not, that are
  written without an exponent mark; all of them when absent -/
  positional : Option (Int × Int)
  /-- a whole number ends in `.0` -/
  wholePoint : Bool
  /-- a positive exponent is signed -/
  exponentPlus : Bool
  nan : String
  infinity : String
  negativeInfinity : String

namespace FloatFormat

def plain : FloatFormat := ⟨.up, none, false, false, "NaN", "inf", "-inf"⟩

def listing : FloatFormat := ⟨.up, some (-4, 16), true, false, "NaN", "inf", "-inf"⟩

def json : FloatFormat := ⟨.toEven, some (-5, 16), true, true, "null", "null", "null"⟩

def zeros (n : Nat) : List Char := List.replicate n '0'

def layPositional (f : FloatFormat) (digits : List Char) (point : Int) : List Char :=
  if point ≤ 0 then '0' :: '.' :: (zeros (-point).toNat ++ digits)
  else if point.toNat < digits.length then
    digits.take point.toNat ++ '.' :: digits.drop point.toNat
  else
    digits ++ zeros (point.toNat - digits.length) ++ (if f.wholePoint then ['.', '0'] else [])

def layExponent (f : FloatFormat) (exponent : Int) : List Char :=
  let magnitude := Nat.toDigits 10 exponent.natAbs
  'e' :: (if exponent < 0 then '-' :: magnitude
    else if f.exponentPlus then '+' :: magnitude else magnitude)

def layScientific (f : FloatFormat) (digits : List Char) (exponent : Int) : List Char :=
  let mantissa := match digits with
    | first :: second :: others => first :: '.' :: second :: others
    | _ => digits
  mantissa ++ layExponent f exponent

def isPositional (f : FloatFormat) (exponent : Int) : Bool :=
  match f.positional with
  | none => true
  | some (low, high) => low ≤ exponent && exponent < high

def layOut (f : FloatFormat) (d : Decimal) : List Char :=
  let digits := Nat.toDigits 10 d.digits
  let point := digits.length + d.exponent
  if f.isPositional (point - 1) then f.layPositional digits point
  else f.layScientific digits (point - 1)

def layMagnitude (f : FloatFormat) (steps : Nat) : List Char :=
  if steps = 0 then f.layPositional ['0'] 1 else f.layOut (Decimal.shortest f.tie steps)

def render (f : FloatFormat) (x : Float) : String :=
  match Exact.ofFloat x with
  | .nan => f.nan
  | .infinite negative => if negative then f.negativeInfinity else f.infinity
  | .finite negative steps =>
    String.ofList ((if negative then ['-'] else []) ++ f.layMagnitude steps)

end FloatFormat

end EventCuts
