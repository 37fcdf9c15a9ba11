import EventCuts.Expr.Basic
import EventCuts.Lexeme

/-!
# Tokens

What the reductions work on: lexemes that stand for themselves, and tokens that
stand for an expression. `Coherent` says that the kind, the text and the
expression of a token agree.
-/

namespace EventCuts

structure Token (C : Type) where
  kind : Kind
  text : String
  value : Option (Expr C)

variable {C : Type}

namespace Token

def ofLexeme (lexeme : Lexeme) : Token C := ⟨lexeme.kind, lexeme.text, none⟩

def resolved (e : Expr C) : Token C := ⟨.resolved e.shape, e.name, some e⟩

def rename (name : String) (t : Token C) : Token C :=
  { t with text := name, value := t.value.map (Expr.rename name) }

def isResolved (t : Token C) : Bool := t.kind.isResolved

theorem isResolved_of_kind {t : Token C} {s : Shape} (h : t.kind = .resolved s) :
    t.isResolved = true := by
  simp [isResolved, h, Kind.isResolved]

theorem isResolved_eq_false {t : Token C} (h : ∀ s, t.kind ≠ .resolved s) :
    t.isResolved = false := by
  cases hk : t.kind <;> simp_all [isResolved, Kind.isResolved]

theorem not_closing_of_isResolved {t : Token C} (h : t.isResolved = true) (b : Bracket) :
    t.kind ≠ .closing b := by
  intro hk
  simp [isResolved, hk, Kind.isResolved] at h

/-- A token has an expression exactly if its kind is resolved, and then agrees with it. -/
def Coherent (t : Token C) : Prop :=
  match t.value with
  | some e => t.kind = .resolved e.shape ∧ t.text = e.name
  | none => t.isResolved = false

theorem coherent_resolved (e : Expr C) : (resolved e).Coherent := ⟨rfl, rfl⟩

theorem coherent_rename (name : String) {t : Token C} (h : t.Coherent) :
    (t.rename name).Coherent := by
  rcases t with ⟨kind, text, _ | e⟩
  · exact h
  · exact ⟨h.1, rfl⟩

def sourceText (tokens : List (Token C)) : String := String.join (tokens.map text)

def quoted (text : String) : String := "'" ++ text ++ "'"

def listText (texts : List String) : String :=
  "[" ++ String.intercalate ", " (texts.map quoted) ++ "]"

end Token

def tokenize (C : Type) (source : String) : List (Token C) :=
  (Lexeme.ofSource source).map Token.ofLexeme

end EventCuts
