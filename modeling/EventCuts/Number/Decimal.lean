import EventCuts.Number.Exact

/-!
# Decimal numbers and floats

Reading rounds a decimal to the nearest float. Writing chooses the fewest
digits that read back, and of two such decimals the nearer one. How ties are
broken and how the chosen digits are laid out is left to the formats.
-/

namespace EventCuts

/-- The value `digits * 10 ^ exponent`. -/
structure Decimal where
  digits : Nat
  exponent : Int
deriving DecidableEq, Repr

inductive Tie where
  | up | toEven
deriving DecidableEq, Repr

def Tie.takesUpper (tie : Tie) (below part whole : Nat) : Bool :=
  if 2 * part < whole then false
  else if whole < 2 * part then true
  else match tie with
    | up => true
    | toEven => below % 2 = 1

namespace Decimal

def toFloat (negative : Bool) (d : Decimal) : Float :=
  if d.digits = 0 then Exact.packSteps negative 0 0
  else if 2048 < d.exponent then Exact.infinity negative
  else if d.exponent < -(2048 + d.digits.log2 : Int) then Exact.packSteps negative 0 0
  else
    Exact.nearest negative (d.digits * Nat.pow 10 d.exponent.toNat * Exact.stepsInOne)
      (Nat.pow 10 (-d.exponent).toNat)

def ofSteps (steps : Nat) : Decimal := ⟨steps * Nat.pow 5 1074, -1074⟩

def readsBack (steps : Nat) (d : Decimal) : Bool :=
  Exact.ofFloat (d.toFloat false) == .finite false steps

def digitCount (n : Nat) : Nat := (Nat.toDigits 10 n).length

def neighbours (full : Decimal) (dropped : Nat) : Decimal × Decimal :=
  let below := full.digits / Nat.pow 10 dropped
  (⟨below, full.exponent + dropped⟩, ⟨below + 1, full.exponent + dropped⟩)

def neighbourReadingBack (tie : Tie) (steps : Nat) (full : Decimal) (dropped : Nat) :
    Option Decimal :=
  let (below, above) := neighbours full dropped
  match readsBack steps below, readsBack steps above with
  | true, true =>
    let unit := Nat.pow 10 dropped
    some (if tie.takesUpper below.digits (full.digits % unit) unit then above else below)
  | true, false => some below
  | false, true => some above
  | false, false => none

def stripZeros (digits : Nat) (exponent : Int) : Decimal :=
  if h : digits ≠ 0 ∧ digits % 10 = 0 then stripZeros (digits / 10) (exponent + 1)
  else ⟨digits, exponent⟩
termination_by digits
decreasing_by omega

/-- The fewest digits, one to seventeen, that read back as a nonzero magnitude. The full
expansion stands behind the search, so that the result reads back in any case. -/
def shortest (tie : Tie) (steps : Nat) : Decimal :=
  let full := ofSteps steps
  let length := digitCount full.digits
  let found := (List.range 17).findSome? fun n =>
    if n + 1 < length then neighbourReadingBack tie steps full (length - (n + 1)) else none
  let chosen := found.getD full
  stripZeros chosen.digits chosen.exponent

end Decimal

end EventCuts
