/-!
# Parse errors

Why a text is no expression, with the blank-free text that the error refers to and
the part of it to point at.
-/

namespace EventCuts

/-- A part of a text, in bytes of its UTF-8 form. -/
structure Span where
  offset : Nat
  length : Nat
deriving DecidableEq, Repr

inductive ParseError where
  | unknownToken (token : String) (span : Span) (source : String)
  | unresolved (remaining : String) (span : Span) (source : String)
  | unknownVariable (name : String) (span : Span) (source : String)
  | invalidNumber (literal : String) (span : Span) (source : String)
deriving DecidableEq, Repr

namespace ParseError

def source : ParseError → String
  | unknownToken _ _ source | unresolved _ _ source | unknownVariable _ _ source
  | invalidNumber _ _ source => source

def span : ParseError → Span
  | unknownToken _ span _ | unresolved _ span _ | unknownVariable _ span _
  | invalidNumber _ span _ => span

def message : ParseError → String
  | unknownToken token _ source =>
    "Function string \"" ++ source ++ "\" contains unknown token \"" ++ token ++ "\""
  | unresolved remaining _ source =>
    "Could not condense \"" ++ source ++ "\" to a single value, left with " ++ remaining
  | unknownVariable name _ _ => "Unknown variable: " ++ name
  | invalidNumber literal _ _ => "Invalid numeric literal: " ++ literal

def code : ParseError → String
  | unknownToken .. => "cutexpr::unknown_token"
  | unresolved .. => "cutexpr::unresolved"
  | unknownVariable .. => "cutexpr::unknown_variable"
  | invalidNumber .. => "cutexpr::invalid_number"

def help : ParseError → Option String
  | unknownToken .. =>
    some ("Valid tokens are numbers, identifiers, ( ) [ ] and the operators " ++
      "+ - * / % ! && || == != < > <= >=")
  | unresolved .. =>
    some ("Check for unbalanced brackets, a missing operand, " ++
      "or two values with no operator between them")
  | unknownVariable .. | invalidNumber .. => none

def label : ParseError → String
  | unknownToken .. => "unknown token"
  | unresolved .. => "does not reduce to one value"
  | unknownVariable .. => "not defined for these events"
  | invalidNumber .. => "not a number"

end ParseError

end EventCuts
