import EventCuts.Log
import EventCuts.Number.Reading
import EventCuts.Reduction
import EventCuts.Schema

/-!
# Compiling an expression

The lexemes of the text are checked, the leaves become expressions, every bracketed
group is compiled on its own, and the reductions condense what is left to one token.
The result bears the text as its name.
-/

namespace EventCuts

variable {C : Type}

def firstUnknown : Nat → List (Token C) → Option (String × Span)
  | _, [] => none
  | offset, t :: rest =>
    let length := t.text.utf8ByteSize
    if t.kind = .unknown then some (t.text, ⟨offset, length⟩)
    else firstUnknown (offset + length) rest

def checkUnknown (source : String) (tokens : List (Token C)) : Except ParseError Unit :=
  match firstUnknown 0 tokens with
  | some (text, span) => .error (.unknownToken text span source)
  | none => .ok ()

/-- An identifier becomes the expression the schema knows, a literal a constant; both keep
their text as their name. -/
def resolveLeaf (schema : Schema C) (source : String) (offset : Nat) (t : Token C) :
    Except ParseError (Token C) :=
  let span : Span := ⟨offset, t.text.utf8ByteSize⟩
  match t.kind with
  | .identifier =>
    match schema t.text with
    | some e => .ok (Token.resolved (e.rename t.text))
    | none => .error (.unknownVariable t.text span source)
  | .number =>
    match readNumber t.text with
    | some x => .ok (Token.resolved (Expr.scalar t.text fun _ => .ok x))
    | none => .error (.invalidNumber t.text span source)
  | _ => .ok t

def resolveLeavesFrom (schema : Schema C) (source : String) :
    Nat → List (Token C) → Except ParseError (List (Token C))
  | _, [] => .ok []
  | offset, t :: rest => do
    let leaf ← resolveLeaf schema source offset t
    let leaves ← resolveLeavesFrom schema source (offset + t.text.utf8ByteSize) rest
    pure (leaf :: leaves)

def resolveLeaves (schema : Schema C) (source : String) (tokens : List (Token C)) :
    Except ParseError (List (Token C)) :=
  resolveLeavesFrom schema source 0 tokens

/-- The number of tokens in front of the bracket that closes the last of `depth` open ones.
Only brackets of the given kind count. -/
def closeOffset (b : Bracket) : (depth : Nat) → List (Token C) → Option Nat
  | _, [] => none
  | depth, t :: rest =>
    if t.kind = .opening b then (closeOffset b (depth + 1) rest).map (· + 1)
    else if t.kind = .closing b then
      if depth ≤ 1 then some 0 else (closeOffset b (depth - 1) rest).map (· + 1)
    else (closeOffset b depth rest).map (· + 1)

def groupLength (t : Token C) (rest : List (Token C)) : Option Nat :=
  match t.kind with
  | .opening b => closeOffset b 1 rest
  | _ => none

def findClose (tokens : List (Token C)) (i : Nat) : Option Nat :=
  match tokens.drop i with
  | [] => none
  | t :: rest => (groupLength t rest).map (i + 1 + ·)

def unresolvedError (source : String) (tokens : List (Token C)) : ParseError :=
  .unresolved (Token.listText (tokens.map Token.text)) ⟨0, source.utf8ByteSize⟩ source

def checkSolved (source : String) : List (Token C) → Except ParseError (Token C)
  | [t] => if t.isResolved then .ok t else .error (unresolvedError source [t])
  | tokens => .error (unresolvedError source tokens)

def passEvents (source : String) (passes : List (Reduction × List (Token C))) : List LogEvent :=
  passes.map fun (r, tokens) => .passed source r.name (tokens.map Token.text)

def finishEvents (source : String) (t : Token C) : List LogEvent :=
  match t.value with
  | some e => [.finished source e.shape]
  | none => []

def condense (source : String) (tokens : List (Token C)) : Logged (Token C) := do
  Logged.tell [.passed source "groupings" (tokens.map Token.text)]
  Logged.tell (passEvents source (Reduction.trail Reduction.pipeline tokens))
  let t ← Logged.ofExcept (checkSolved source (Reduction.applyAll Reduction.pipeline tokens))
  let named := t.rename source
  Logged.tell (finishEvents source named)
  pure named

/-- Compiles the inside of every matched, nonempty pair of brackets to one token; the
brackets stay, for the reductions to see. Brackets without a partner or with nothing
inside stay as they are. -/
def compileGroups : List (Token C) → Logged (List (Token C))
  | [] => pure []
  | t :: rest =>
    match groupLength t rest with
    | some (n + 1) => do
      let inside := rest.take (n + 1)
      Logged.tell [.started (Token.sourceText inside)]
      let groups ← compileGroups inside
      let value ← condense (Token.sourceText inside) groups
      let others ← compileGroups (rest.drop (n + 1))
      pure (t :: value :: others)
    | _ => do
      let others ← compileGroups rest
      pure (t :: others)
termination_by tokens => tokens.length
decreasing_by all_goals simp only [List.length_take, List.length_drop, List.length_cons]; omega

def compileTokens (schema : Schema C) (source : String) (tokens : List (Token C)) :
    Logged (Token C) := do
  Logged.tell [.started source]
  Logged.ofExcept (checkUnknown source tokens)
  let leaves ← Logged.ofExcept (resolveLeaves schema source tokens)
  let groups ← compileGroups leaves
  condense source groups

def tokenValue (source : String) (t : Token C) : Except ParseError (Expr C) :=
  match t.value with
  | some e => .ok e
  | none => .error (unresolvedError source [t])

def compile (schema : Schema C) (source : String) : Logged (Expr C) := do
  let stripped := Text.stripBlanks source
  let t ← compileTokens schema stripped (tokenize C stripped)
  Logged.ofExcept (tokenValue stripped t)

def parse (schema : Schema C) (source : String) : Except ParseError (Expr C) :=
  (compile schema source).result

end EventCuts
