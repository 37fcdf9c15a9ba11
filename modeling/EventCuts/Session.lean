import EventCuts.Compile

/-!
# Sessions

A session holds one source and remembers how far it got with it. A failed attempt
leaves the lexemes in place; a new source forgets everything.
-/

namespace EventCuts

variable {C : Type}

inductive Progress (C : Type) where
  | untouched
  | tokenized (tokens : List (Token C))
  | solved (token : Token C)

/-- The source is free of blanks. -/
structure Session (C : Type) where
  source : String
  progress : Progress C

namespace Session

def start (source : String) : Session C := ⟨Text.stripBlanks source, .untouched⟩

def setSource (_ : Session C) (source : String) : Session C := start source

def tokens (s : Session C) : List (Token C) :=
  match s.progress with
  | .untouched => []
  | .tokenized tokens => tokens
  | .solved token => [token]

def tokenize (s : Session C) : Session C :=
  match s.progress with
  | .untouched => { s with progress := .tokenized (EventCuts.tokenize C s.source) }
  | _ => s

/-- The token of the whole source, from memory if there is one. -/
def resolveToken (schema : Schema C) (s : Session C) :
    Session C × Except ParseError (Token C) :=
  match s.progress with
  | .solved token => (s, .ok token)
  | _ =>
    let ready := s.tokenize
    match (compileTokens schema s.source ready.tokens).result with
    | .ok token => ({ s with progress := .solved token }, .ok token)
    | .error e => (ready, .error e)

def resolve (schema : Schema C) (s : Session C) : Session C × Except ParseError (Expr C) :=
  let (next, result) := s.resolveToken schema
  (next, result.bind (tokenValue s.source))

def display (s : Session C) : String :=
  s.source ++ " " ++ Token.listText (s.tokens.map Token.text)

end Session

end EventCuts
