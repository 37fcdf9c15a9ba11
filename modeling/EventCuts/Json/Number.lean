import EventCuts.Number.Reading

/-!
# Numbers of JSON texts

A JSON number is read with a 64-bit significand, scaled by a power of ten in float
arithmetic. Digits that do not fit into the significand only count for the scale,
so that long numbers may miss the nearest float; a number beyond the floats is refused.
-/

namespace EventCuts.JsonNumber

open Literal (isDigit isSign isDecimalMark)

structure Parts where
  negative : Bool
  whole : List Char
  fraction : List Char
  exponent : Int

def maxSignificand : Nat := UInt64.size - 1

def absorb : Nat → List Char → Nat × List Char
  | significand, [] => (significand, [])
  | significand, c :: rest =>
    let next := significand * 10 + Reading.digitValue c
    if next ≤ maxSignificand then absorb next rest else (significand, c :: rest)

def powerOfTen (n : Nat) : Float := Decimal.toFloat false ⟨1, n⟩

def scale (x : Float) (exponent : Int) : Option Float :=
  if 0 ≤ exponent then
    if exponent ≤ 308 then
      let y := x * powerOfTen exponent.toNat
      if y.isInf then none else some y
    else if x == 0 then some x else none
  else if -308 ≤ exponent then some (x / powerOfTen (-exponent).toNat)
  else if x == 0 then some x
  else scale (x / powerOfTen 308) (exponent + 308)
termination_by (-exponent).toNat

/-- Fraction digits behind the significand are dropped; whole digits behind it scale it up. -/
def Parts.toFloat (p : Parts) : Option Float :=
  let (head, overflow) := absorb 0 p.whole
  let (significand, dropped) := absorb head p.fraction
  let places : Int := p.fraction.length - dropped.length
  let magnitude := Exact.nearest false (significand * Exact.stepsInOne) 1
  (scale magnitude (overflow.length - places + p.exponent)).map fun x =>
    if p.negative then -x else x

def isWhole (digits : List Char) : Bool :=
  match digits with
  | [] => false
  | ['0'] => true
  | c :: _ => c != '0' && digits.all isDigit

def fraction? : Option (List Char) → Option (List Char)
  | none => some []
  | some digits => if digits ≠ [] ∧ digits.all isDigit then some digits else none

def unsigned? (negative : Bool) (text : List Char) : Option Parts := do
  let (mantissa, exponent) := Reading.splitAtMark isDecimalMark text
  let (whole, fraction) := Reading.splitAtMark (· == '.') mantissa
  let fraction ← fraction? fraction
  let exponent ← Reading.exponent? exponent
  if isWhole whole then some ⟨negative, whole, fraction, exponent⟩ else none

def parts? : List Char → Option Parts
  | '-' :: rest => unsigned? true rest
  | text => unsigned? false text

def read (text : List Char) : Option Float := (parts? text).bind Parts.toFloat

end EventCuts.JsonNumber
