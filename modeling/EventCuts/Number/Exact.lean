/-!
# Floats as exact numbers

Every finite float is a whole number of steps of `2 ^ -1074`, the distance
between neighbouring floats around zero. Counting steps turns truncation and
remainder into natural-number arithmetic, and rounding into one division.
-/

namespace EventCuts

open Float.Model (UnpackedFloat)

inductive Exact where
  | nan
  | infinite (negative : Bool)
  | finite (negative : Bool) (steps : Nat)
deriving DecidableEq, Repr

namespace Exact

def stepsInOne : Nat := Nat.pow 2 1074

def sign (negative : Bool) : UnpackedFloat.Sign :=
  if negative then .negative else .positive

def isNegative : UnpackedFloat.Sign → Bool
  | .negative => true
  | .positive => false

def ofUnpacked : UnpackedFloat → Exact
  | .notANumber => .nan
  | .infinity s => .infinite (isNegative s)
  | .zero s => .finite (isNegative s) 0
  | .finite s mantissa exponent _ =>
    .finite (isNegative s) (mantissa * Nat.pow 2 (exponent + 1074).toNat)

def ofFloat (x : Float) : Exact := ofUnpacked x.toModel.unpack

def pack (x : UnpackedFloat) : Float := Float.ofModel (Float.Model.pack x)

def undefined : Float := pack .notANumber

def infinity (negative : Bool) : Float := pack (.infinity (sign negative))

/-- A magnitude of `mantissa * 2 ^ shift` steps. Meant for mantissas below `2 ^ 53`
that reach `2 ^ 52` unless the shift is zero: these are packed unchanged, and a
shift beyond the range gives an infinity. -/
def packSteps (negative : Bool) (mantissa shift : Nat) : Float :=
  if h : 0 < mantissa then
    pack (.finite (sign negative) mantissa ((shift : Int) - 1074) h)
  else
    pack (.zero (sign negative))

def roundDiv (num den : Nat) : Nat :=
  let quotient := num / den
  let rest := 2 * (num % den)
  if rest < den then quotient
  else if den < rest then quotient + 1
  else quotient + quotient % 2

/-- The float nearest to `num / den` steps, a tie going to the even mantissa.
The shift leaves 53 bits of quotient, or all of them when there are fewer;
rounding may carry into a 54th. -/
def nearest (negative : Bool) (num den : Nat) : Float :=
  let shift := (num / den).log2 - 52
  let mantissa := roundDiv num (den * Nat.pow 2 shift)
  if mantissa < Nat.pow 2 53 then packSteps negative mantissa shift
  else packSteps negative (Nat.pow 2 52) (shift + 1)

def whole (steps : Nat) : Nat := steps / stepsInOne

/-- The remainder of the division truncated toward zero. It has the sign of the
dividend; it is undefined for an infinite dividend or a zero divisor. -/
def remainder (x y : Float) : Float :=
  match ofFloat x, ofFloat y with
  | .finite negative steps, .finite _ divisor =>
    if divisor = 0 then undefined else nearest negative (steps % divisor) 1
  | .finite _ _, .infinite _ => x
  | _, _ => undefined

end Exact

end EventCuts
