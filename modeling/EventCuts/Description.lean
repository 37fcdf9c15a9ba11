import EventCuts.Text.Quoted
import EventCuts.Token

/-!
# Descriptions

One-line descriptions of expressions and tokens for a developer, with quoted texts.
-/

namespace EventCuts

def Shape.title : Shape → String
  | scalar => "Scalar"
  | vector => "Vector"

def describe (title : String) (parts : List (String × String)) : String :=
  title ++ " \x7b " ++
    String.intercalate ", " (parts.map fun (name, text) => name ++ ": " ++ text) ++ " \x7d"

variable {C : Type}

def Expr.describe (e : Expr C) : String :=
  EventCuts.describe "Expr" [("name", Text.quoteListing e.name), ("shape", e.shape.title)]

def Token.describe (t : Token C) : String :=
  EventCuts.describe "Token" [("kind", t.kind.name), ("text", Text.quoteListing t.text)]

end EventCuts
