import EventCuts.Record.Basic
import EventCuts.Text.Quoted

/-!
# JSON documents

The documents that are written, on one line or indented. A number is finite; for a float
that is not, `null` stands in its place.
-/

namespace EventCuts

inductive Json where
  | null
  | number (x : Float) (finite : x.isFinite = true)
  | text (s : String)
  | array (items : List Json)
  | object (fields : List (String × Json))

namespace Json

def ofFloat (x : Float) : Json :=
  if h : x.isFinite = true then .number x h else .null

def openBrace : String := "\x7b"

def closeBrace : String := "\x7d"

mutual

def compact : Json → String
  | null => "null"
  | number x _ => FloatFormat.json.render x
  | text s => Text.quoteJson s
  | array items => "[" ++ String.intercalate "," (compactItems items) ++ "]"
  | object fields => openBrace ++ String.intercalate "," (compactFields fields) ++ closeBrace

def compactItems : List Json → List String
  | [] => []
  | item :: rest => compact item :: compactItems rest

def compactFields : List (String × Json) → List String
  | [] => []
  | (name, value) :: rest => (Text.quoteJson name ++ ":" ++ compact value) :: compactFields rest

end

def newline (depth : Nat) : String := "\n" ++ String.ofList (List.replicate (2 * depth) ' ')

def enclose (depth : Nat) (opening closing : String) (parts : List String) : String :=
  if parts.isEmpty then opening ++ closing
  else
    opening ++ newline (depth + 1) ++ String.intercalate ("," ++ newline (depth + 1)) parts ++
      newline depth ++ closing

mutual

def indented (depth : Nat) : Json → String
  | null => "null"
  | number x _ => FloatFormat.json.render x
  | text s => Text.quoteJson s
  | array items => enclose depth "[" "]" (indentedItems (depth + 1) items)
  | object fields => enclose depth openBrace closeBrace (indentedFields (depth + 1) fields)

def indentedItems (depth : Nat) : List Json → List String
  | [] => []
  | item :: rest => indented depth item :: indentedItems depth rest

def indentedFields (depth : Nat) : List (String × Json) → List String
  | [] => []
  | (name, value) :: rest =>
    (Text.quoteJson name ++ ": " ++ indented depth value) :: indentedFields depth rest

end

end Json

def Value.toJson : Value → Json
  | .scalar x => .ofFloat x
  | .vector xs => .array (xs.map .ofFloat)

def Record.toJson (r : Record) : Json :=
  .object (r.columns.sorted.map fun (name, value) => (name, value.toJson))

end EventCuts
