import EventCuts.Json.Number
import EventCuts.Record.Basic

/-!
# Events as JSON texts

An event is a JSON object whose values are numbers or arrays of numbers. The text is
cut into lexemes first; a text that is JSON but no such object is refused like one
that is no JSON at all.
-/

namespace EventCuts

namespace EventText

inductive Lexeme where
  | mark (c : Char)
  | text (s : String)
  | number (x : Float)

def isMark (c : Char) : Bool :=
  c == '[' || c == ']' || c == ',' || c == ':' || c == '\x7b' || c == '\x7d'

def isBlank (c : Char) : Bool := c == ' ' || c == '\n' || c == '\r' || c == '\t'

def isNumberChar (c : Char) : Bool :=
  Literal.isDigit c || Literal.isSign c || Literal.isDecimalMark c || c == '.'

def hexValue? (c : Char) : Option Nat :=
  if Literal.isHexDigit c then some (Reading.digitValue c) else none

def codeUnit? (a b c d : Char) : Option Nat := do
  pure ((((← hexValue? a) * 16 + (← hexValue? b)) * 16 + (← hexValue? c)) * 16 + (← hexValue? d))

def isHighSurrogate (unit : Nat) : Bool := 0xD800 ≤ unit && unit < 0xDC00

def isLowSurrogate (unit : Nat) : Bool := 0xDC00 ≤ unit && unit < 0xE000

def escape? (c : Char) : Option Char :=
  if c = 'n' then some '\n'
  else if c = 'r' then some '\r'
  else if c = 't' then some '\t'
  else if c = 'b' then some (Char.ofNat 0x08)
  else if c = 'f' then some (Char.ofNat 0x0C)
  else if c = '"' ∨ c = '\\' ∨ c = '/' then some c
  else none

def readUnit : List Char → Option (Nat × List Char)
  | '\\' :: 'u' :: a :: b :: c :: d :: rest => (codeUnit? a b c d).map (·, rest)
  | _ => none

theorem readUnit_length {text rest : List Char} {unit : Nat}
    (h : readUnit text = some (unit, rest)) : rest.length < text.length := by
  unfold readUnit at h
  split at h
  · obtain ⟨_, _, he⟩ := Option.map_eq_some_iff.1 h
    obtain rfl := (Prod.mk.inj he).2
    simp only [List.length_cons]
    omega
  · simp at h

def joinSurrogates (high low : Nat) : Char :=
  Char.ofNat (0x10000 + (high - 0xD800) * 0x400 + (low - 0xDC00))

def completeUnit (unit : Nat) (text : List Char) : Option (Char × List Char) :=
  if isHighSurrogate unit then
    match readUnit text with
    | some (low, rest) =>
      if isLowSurrogate low then some (joinSurrogates unit low, rest) else none
    | none => none
  else if isLowSurrogate unit then none
  else some (Char.ofNat unit, text)

theorem completeUnit_length {unit : Nat} {text rest : List Char} {c : Char}
    (h : completeUnit unit text = some (c, rest)) : rest.length ≤ text.length := by
  unfold completeUnit at h
  split at h
  · split at h
    · rename_i hr
      have := readUnit_length hr
      split at h <;> simp_all
      omega
    · simp at h
  · split at h <;> simp_all

def readPlain : List Char → Option (Char × List Char)
  | '\\' :: c :: rest => (escape? c).map (·, rest)
  | c :: rest => if c = '\\' ∨ c.toNat < 0x20 then none else some (c, rest)
  | [] => none

theorem readPlain_length {text rest : List Char} {c : Char}
    (h : readPlain text = some (c, rest)) : rest.length < text.length := by
  unfold readPlain at h
  split at h
  · obtain ⟨_, _, he⟩ := Option.map_eq_some_iff.1 h
    obtain rfl := (Prod.mk.inj he).2
    simp only [List.length_cons]
    omega
  · split at h <;> simp_all
  · simp at h

def readChar (text : List Char) : Option (Char × List Char) :=
  match readUnit text with
  | some (unit, rest) => completeUnit unit rest
  | none => readPlain text

theorem readChar_length {text rest : List Char} {c : Char} (h : readChar text = some (c, rest)) :
    rest.length < text.length := by
  unfold readChar at h
  split at h
  · rename_i hu
    have := readUnit_length hu
    have := completeUnit_length h
    omega
  · exact readPlain_length h

def readText (text : List Char) : Option (List Char × List Char) :=
  if text.head? = some '"' then some ([], text.tail)
  else
    match _h : readChar text with
    | none => none
    | some (c, rest) => (readText rest).map fun (cs, behind) => (c :: cs, behind)
termination_by text.length
decreasing_by exact readChar_length _h

theorem readText_length {text cs rest : List Char} (h : readText text = some (cs, rest)) :
    rest.length < text.length := by
  induction hn : text.length using Nat.strongRecOn generalizing text cs rest with
  | _ n ih =>
    unfold readText at h
    split at h
    · rename_i hq
      cases text with
      | nil => simp at hq
      | cons c tail => simp_all; omega
    · split at h
      · simp at h
      · rename_i hc
        obtain ⟨⟨cs', rest'⟩, ht, he⟩ := Option.map_eq_some_iff.1 h
        have hlt := readChar_length hc
        obtain rfl := (Prod.mk.inj he).2
        have := ih _ (by omega) ht rfl
        omega

def cut : List Char → Option (List Lexeme)
  | [] => some []
  | c :: rest =>
    if isBlank c then cut rest
    else if isMark c then (cut rest).map (.mark c :: ·)
    else if c = '"' then
      match _h : readText rest with
      | none => none
      | some (cs, behind) => (cut behind).map (.text (String.ofList cs) :: ·)
    else
      match JsonNumber.read (c :: rest.takeWhile isNumberChar) with
      | none => none
      | some x => (cut (rest.dropWhile isNumberChar)).map (.number x :: ·)
termination_by text => text.length
decreasing_by
  · simp
  · simp
  · have := readText_length _h
    simp only [List.length_cons]
    omega
  · have := (List.dropWhile_sublist isNumberChar (l := rest)).length_le
    simp only [List.length_cons]
    omega

/-- The numbers up to the closing bracket of an array whose first number is read, and what
is behind it. -/
def moreNumbers : List Lexeme → Option (List Float × List Lexeme)
  | .mark ']' :: rest => some ([], rest)
  | .mark ',' :: .number x :: rest => (moreNumbers rest).map fun (xs, behind) => (x :: xs, behind)
  | _ => none

def column? : List Lexeme → Option (Value × List Lexeme)
  | .number x :: rest => some (.scalar x, rest)
  | .mark '[' :: .mark ']' :: rest => some (.vector [], rest)
  | .mark '[' :: .number x :: rest =>
    (moreNumbers rest).map fun (xs, behind) => (.vector (x :: xs), behind)
  | _ => none

theorem moreNumbers_length {text rest : List Lexeme} {xs : List Float}
    (h : moreNumbers text = some (xs, rest)) : rest.length < text.length := by
  fun_induction moreNumbers text generalizing xs rest with
  | case1 => simp_all
  | case2 x tail ih =>
    obtain ⟨⟨ys, behind⟩, ht, he⟩ := Option.map_eq_some_iff.1 h
    obtain rfl := (Prod.mk.inj he).2
    have := ih ht
    simp only [List.length_cons]
    omega
  | case3 => simp at h

theorem column?_length {text rest : List Lexeme} {value : Value}
    (h : column? text = some (value, rest)) : rest.length < text.length := by
  unfold column? at h
  split at h
  · obtain rfl := (Prod.mk.inj (Option.some.inj h)).2
    simp only [List.length_cons]
    omega
  · obtain rfl := (Prod.mk.inj (Option.some.inj h)).2
    simp only [List.length_cons]
    omega
  · obtain ⟨⟨ys, behind⟩, ht, he⟩ := Option.map_eq_some_iff.1 h
    obtain rfl := (Prod.mk.inj he).2
    have := moreNumbers_length ht
    simp only [List.length_cons]
    omega
  · simp at h

def members? : List Lexeme → Option (List (String × Value))
  | .text name :: .mark ':' :: rest =>
    match _h : column? rest with
    | some (value, [.mark '\x7d']) => some [(name, value)]
    | some (value, .mark ',' :: others) => (members? others).map ((name, value) :: ·)
    | _ => none
  | _ => none
termination_by text => text.length
decreasing_by
  have := column?_length _h
  simp only [List.length_cons] at *
  omega

def object? : List Lexeme → Option (List (String × Value))
  | [.mark '\x7b', .mark '\x7d'] => some []
  | .mark '\x7b' :: rest => members? rest
  | _ => none

end EventText

/-- The event that a JSON text describes; of two members of one name the last counts. -/
def Record.ofJson? (text : String) : Option Record :=
  ((EventText.cut text.toList).bind EventText.object?).map Record.ofList

end EventCuts
