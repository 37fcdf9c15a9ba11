import EventCuts.Operator
import EventCuts.Number.Format

/-!
# Values and evaluation errors

An expression yields one float per event or a list of them, and its shape says
which. Evaluation fails for reasons that only an event can bring about.
-/

namespace EventCuts

inductive Shape where
  | scalar | vector
deriving DecidableEq, Repr

def Shape.name : Shape → String
  | scalar => "scalar"
  | vector => "vector"

inductive Value where
  | scalar (x : Float)
  | vector (xs : List Float)

namespace Value

def shape : Value → Shape
  | scalar _ => .scalar
  | vector _ => .vector

def scalar? : Value → Option Float
  | scalar x => some x
  | vector _ => none

def vector? : Value → Option (List Float)
  | scalar _ => none
  | vector xs => some xs

def anyPasses (xs : List Float) : Bool := xs.any isTrue

def passes : Value → Bool
  | scalar x => isTrue x
  | vector xs => anyPasses xs

def text : Value → String
  | scalar x => FloatFormat.plain.render x
  | vector xs => "[" ++ String.intercalate ", " (xs.map FloatFormat.listing.render) ++ "]"

end Value

inductive EvalError where
  | indexOutOfRange (name : String) (index : Float) (count : Nat)
  | emptyBroadcast (name : String)
  | shapeMismatch (name : String) (expected : Shape)
  | missingColumn (name : String)

def EvalError.message : EvalError → String
  | indexOutOfRange name index count =>
    "index " ++ FloatFormat.plain.render index ++ " out of range for '" ++ name ++ "' with " ++
      toString count ++ " entries"
  | emptyBroadcast name => "cannot broadcast a scalar against empty vector '" ++ name ++ "'"
  | shapeMismatch name expected => "'" ++ name ++ "' is not a " ++ expected.name
  | missingColumn name => "event has no column named '" ++ name ++ "'"

abbrev Eval (α : Type) := Except EvalError α

end EventCuts
