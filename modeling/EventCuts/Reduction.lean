import EventCuts.Token

/-!
# Reductions

Each reduction sweeps once over the tokens, from left to right, and condenses every
match of its pattern into one resolved token. The output is a stack with the last
token on top, so a condensed token is at once the left operand of the next match:
chains of one level of binding associate to the left.
-/

namespace EventCuts

variable {C : Type}

namespace Reduction

/-- Pushes the tokens one after the other; `push` may condense the top of the stack. -/
def sweep (push : List (Token C) → Token C → List (Token C)) (tokens : List (Token C)) :
    List (Token C) :=
  (tokens.foldl push []).reverse

def pushParenthesis (stack : List (Token C)) (t : Token C) : List (Token C) :=
  match stack with
  | inner :: opener :: below =>
    if t.kind = .closing .round ∧ opener.kind = .opening .round ∧ inner.isResolved then
      inner.rename ("(" ++ inner.text ++ ")") :: below
    else t :: stack
  | _ => t :: stack

/-- The entry that three tokens and a closing bracket name, if they hold a vector and a scalar. -/
def subscripted (vector opener index close : Token C) : Option (Expr C) := do
  let entries ← vector.value
  let position ← index.value
  let entry ← entries.subscript position
  pure (entry.rename (Token.sourceText [vector, opener, index, close]))

def pushSubscript (stack : List (Token C)) (t : Token C) : List (Token C) :=
  match stack with
  | index :: opener :: vector :: below =>
    if t.kind = .closing .square ∧ vector.kind = .resolved .vector ∧
        opener.kind = .opening .square ∧ index.kind = .resolved .scalar then
      match subscripted vector opener index t with
      | some entry => Token.resolved entry :: below
      | none => t :: below
    else t :: stack
  | _ => t :: stack

def pushSign (stack : List (Token C)) (t : Token C) : List (Token C) :=
  { t with kind := t.kind.after (stack.head?.map Token.kind) } :: stack

/-- Applies the prefix operators on top of the stack, the innermost first. -/
def applyPrefixes : List (Token C) → Expr C → List (Token C)
  | [], e => [Token.resolved e]
  | top :: below, e =>
    match top.kind with
    | .prefixOp op => applyPrefixes below (e.unary op)
    | _ => Token.resolved e :: top :: below

def pushPrefixed (stack : List (Token C)) (t : Token C) : List (Token C) :=
  match t.value, stack with
  | some e, top :: below =>
    match top.kind with
    | .prefixOp op => applyPrefixes below (e.unary op)
    | _ => t :: stack
  | _, _ => t :: stack

def pushOperand (ops : List BinaryOp) (stack : List (Token C)) (t : Token C) : List (Token C) :=
  match t.value, stack with
  | some right, operator :: left :: below =>
    match operator.kind, left.value with
    | .binary op, some left =>
      if op ∈ ops then Token.resolved (left.binary op right) :: below else t :: stack
    | _, _ => t :: stack
  | _, _ => t :: stack

end Reduction

inductive Reduction where
  | parentheses
  | subscripts
  | signs
  | prefixes
  | operators (ops : List BinaryOp)
deriving DecidableEq, Repr

namespace Reduction

def name : Reduction → String
  | parentheses => "parentheses"
  | subscripts => "subscripts"
  | signs => "plus/minus"
  | prefixes => "unary"
  | operators _ => "binary"

def apply : Reduction → List (Token C) → List (Token C)
  | parentheses => sweep pushParenthesis
  | subscripts => sweep pushSubscript
  | signs => sweep pushSign
  | prefixes => sweep pushPrefixed
  | operators ops => sweep (pushOperand ops)

/-- All reductions in order. Parentheses go before subscripts, so that `(v*2)[1]` has a
vector to subscript. -/
def pipeline : List Reduction :=
  [parentheses, subscripts, signs, prefixes] ++ BinaryOp.precedence.map operators

def trail : List Reduction → List (Token C) → List (Reduction × List (Token C))
  | [], _ => []
  | r :: rest, tokens => (r, r.apply tokens) :: trail rest (r.apply tokens)

def applyAll (reductions : List Reduction) (tokens : List (Token C)) : List (Token C) :=
  reductions.foldl (fun tokens r => r.apply tokens) tokens

end Reduction

end EventCuts
