import EventCuts.Kind
import EventCuts.Text.Blank
import EventCuts.Number.Literal

/-!
# Lexemes

An expression text cut into classified pieces. Cutting never fails: a character
that starts nothing known is a piece of its own. The pieces laid side by side are
the text again.
-/

namespace EventCuts

structure Lexeme where
  kind : Kind
  text : String
deriving DecidableEq, Repr

namespace Lexeme

def isNameStart (c : Char) : Bool := c.isAlpha || c == '_'

def isNameChar (c : Char) : Bool := c.isAlphanum || c == '_'

def digraphAt (c : Char) : List Char → Option Kind
  | second :: _ => Kind.ofDigraph c second
  | [] => none

def scan (c : Char) (rest : List Char) : Kind × Nat :=
  match digraphAt c rest with
  | some kind => (kind, 1)
  | none =>
    match Kind.ofPunctuation c with
    | some kind => (kind, 0)
    | none =>
      if isNameStart c then (.identifier, Literal.run isNameChar rest)
      else
        match Literal.length (c :: rest) with
        | n + 1 => (.number, n)
        | 0 => (.unknown, 0)

/-- The lexemes of a text as it stands; a blank is an unknown piece. -/
def cut : List Char → List Lexeme
  | [] => []
  | c :: rest =>
    let (kind, further) := scan c rest
    ⟨kind, String.ofList (c :: rest.take further)⟩ :: cut (rest.drop further)
termination_by text => text.length
decreasing_by simp only [List.length_drop, List.length_cons]; omega

def ofSource (source : String) : List Lexeme := cut (Text.stripBlanks source).toList

theorem flatMap_text_cut (text : List Char) :
    (cut text).flatMap (fun lexeme => lexeme.text.toList) = text := by
  fun_induction cut text with
  | case1 => rfl
  | case2 c rest kind further h ih => simp [ih]

theorem cut_ne_empty {text : List Char} {lexeme : Lexeme} (h : lexeme ∈ cut text) :
    lexeme.text.toList ≠ [] := by
  fun_induction cut text with
  | case1 => simp at h
  | case2 c rest kind further _ ih =>
    rcases List.mem_cons.1 h with rfl | h
    · simp
    · exact ih h

end Lexeme

end EventCuts
