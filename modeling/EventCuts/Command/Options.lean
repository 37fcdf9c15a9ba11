/-!
# Command-line options

An expression and options in any order. Arguments are read from the left; the first
one that settles the matter (a request for the version or for help, or a misuse) wins.
-/

namespace EventCuts.Command

structure Options where
  expression : String
  events : List String
  tokens : Bool
  json : Bool
deriving DecidableEq, Repr

inductive Request where
  | evaluate (options : Options)
  | version
  | help
  | misuse
deriving DecidableEq, Repr

structure Given where
  expression : Option String
  events : List String
  tokens : Bool
  json : Bool

namespace Given

def nothing : Given := ⟨none, [], false, false⟩

def addEvent (given : Given) (event : String) : Given :=
  { given with events := given.events ++ [event] }

def addExpression? (given : Given) (expression : String) : Option Given :=
  match given.expression with
  | none => some { given with expression := some expression }
  | some _ => none

def finish (given : Given) : Request :=
  match given.expression with
  | some expression => .evaluate ⟨expression, given.events, given.tokens, given.json⟩
  | none => .misuse

end Given

inductive Argument where
  | plain (text : String)
  | separator
  | event (value : Option String)
  | tokens
  | json
  | version
  | help
  | unknown
deriving DecidableEq, Repr

namespace Argument

def splitValue (text : List Char) : String × Option String :=
  match text.dropWhile (· != '=') with
  | _ :: value => (String.ofList (text.takeWhile (· != '=')), some (String.ofList value))
  | [] => (String.ofList text, none)

def ofLong (text : List Char) : Argument :=
  match splitValue text with
  | ("event", value) => .event value
  | ("tokens", none) => .tokens
  | ("json", none) => .json
  | ("version", none) => .version
  | ("help", none) => .help
  | _ => .unknown

def ofShort : List Char → Argument
  | ['e'] => .event none
  | 'e' :: '=' :: value => .event (some (String.ofList value))
  | 'e' :: value => .event (some (String.ofList value))
  | 'V' :: _ => .version
  | 'h' :: _ => .help
  | _ => .unknown

def ofText (text : String) : Argument :=
  match text.toList with
  | ['-', '-'] => .separator
  | '-' :: '-' :: long => ofLong long
  | ['-'] => .plain text
  | '-' :: short => ofShort short
  | _ => .plain text

end Argument

def readPlain (given : Given) : List String → Request
  | [] => given.finish
  | text :: rest =>
    match given.addExpression? text with
    | some given => readPlain given rest
    | none => .misuse

def readArguments (given : Given) : List String → Request
  | [] => given.finish
  | text :: rest =>
    match Argument.ofText text with
    | .plain text =>
      match given.addExpression? text with
      | some given => readArguments given rest
      | none => .misuse
    | .separator => readPlain given rest
    | .event (some value) => readArguments (given.addEvent value) rest
    | .event none =>
      match rest with
      | [] => .misuse
      | value :: rest =>
        match Argument.ofText value with
        | .plain value => readArguments (given.addEvent value) rest
        | _ => .misuse
    | .tokens => if given.tokens then .misuse else readArguments { given with tokens := true } rest
    | .json => if given.json then .misuse else readArguments { given with json := true } rest
    | .version => .version
    | .help => .help
    | .unknown => .misuse

def Request.ofArguments (arguments : List String) : Request :=
  readArguments .nothing arguments

end EventCuts.Command
