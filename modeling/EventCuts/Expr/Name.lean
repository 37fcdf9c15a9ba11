import EventCuts.Expr.Basic
import EventCuts.Lexeme

/-!
# Names for files and for readers

The plain form of a name spells operators and brackets as words, so that it can be
part of a file name. The pretty form sets binary operators apart.
-/

namespace EventCuts.Name

/-- Words for pairs of characters; these go first, so that `<=` is not read as `<`. -/
def pairWords : List (Char × Char × String) :=
  [('&', '&', "AND"), ('|', '|', "OR"), ('=', '=', "EQL"), ('!', '=', "NEQ"),
    ('<', '=', "LEQ"), ('>', '=', "GEQ")]

def charWords : List (Char × String) :=
  [('(', "OP"), (')', "CP"), ('[', "OB"), (']', "CB"), ('+', "PLS"), ('-', "MNS"),
    ('*', "TMS"), ('/', "DIV"), ('%', "MOD"), ('!', "NOT"), ('<', "LES"), ('>', "GTR"),
    ('.', "p")]

def replacePair (first second : Char) (word : List Char) : List Char → List Char
  | c :: d :: rest =>
    if c = first ∧ d = second then word ++ replacePair first second word rest
    else c :: replacePair first second word (d :: rest)
  | rest => rest

def replaceChar (char : Char) (word : List Char) (text : List Char) : List Char :=
  text.flatMap fun c => if c = char then word else [c]

def spellPairs (text : List Char) : List Char :=
  pairWords.foldl (fun text (first, second, word) => replacePair first second word.toList text)
    text

def spellChars (text : List Char) : List Char :=
  charWords.foldl (fun text (char, word) => replaceChar char word.toList text) text

def collapse : List Char → List Char
  | '_' :: '_' :: rest => collapse ('_' :: rest)
  | c :: rest => c :: collapse rest
  | [] => []

/-- Underscores are collapsed before the characters that have no word are dropped. -/
def plainChars (text : List Char) : List Char :=
  (collapse (spellChars (spellPairs text))).filter Lexeme.isNameChar

def plain (name : String) : String :=
  String.ofList (plainChars (Text.stripBlanks name).toList)

def prettyText (kind : Kind) (text : String) : String :=
  match kind with
  | .binary .and => " and "
  | .binary .or => " or "
  | .binary _ => " " ++ text ++ " "
  | _ => text

def prettyFrom (previous : Option Kind) : List Lexeme → String
  | [] => ""
  | lexeme :: rest =>
    let kind := lexeme.kind.after previous
    prettyText kind lexeme.text ++ prettyFrom (some kind) rest

def pretty (name : String) : String := prettyFrom none (Lexeme.ofSource name)

end EventCuts.Name

namespace EventCuts.Expr

variable {C : Type}

def plainName (e : Expr C) : String := Name.plain e.name

def prettyName (e : Expr C) : String := Name.pretty e.name

end EventCuts.Expr
