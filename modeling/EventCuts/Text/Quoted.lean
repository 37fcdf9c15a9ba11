import EventCuts.Text.Printable

/-!
# Quoted texts

Two ways to write a text between quotation marks: for JSON documents, and for the
reader of a listing.
-/

namespace EventCuts.Text

def hexDigits (n : Nat) : List Char := Nat.toDigits 16 n

def escapeJsonCode (c : Char) : List Char :=
  let digits := hexDigits c.toNat
  '\\' :: 'u' :: (List.replicate (4 - digits.length) '0' ++ digits)

def escapeJson (c : Char) : List Char :=
  if c = '"' then ['\\', '"']
  else if c = '\\' then ['\\', '\\']
  else if c = '\n' then ['\\', 'n']
  else if c = '\r' then ['\\', 'r']
  else if c = '\t' then ['\\', 't']
  else if c.toNat = 0x08 then ['\\', 'b']
  else if c.toNat = 0x0C then ['\\', 'f']
  else if c.toNat < 0x20 then escapeJsonCode c
  else [c]

def escapeListingCode (c : Char) : List Char :=
  ['\\', 'u', Char.ofNat 0x7B] ++ hexDigits c.toNat ++ [Char.ofNat 0x7D]

def escapeListing (c : Char) : List Char :=
  if c = '"' then ['\\', '"']
  else if c = '\\' then ['\\', '\\']
  else if c = '\n' then ['\\', 'n']
  else if c = '\r' then ['\\', 'r']
  else if c = '\t' then ['\\', 't']
  else if c.toNat = 0 then ['\\', '0']
  else if isPrintable c then [c]
  else escapeListingCode c

def quote (escape : Char → List Char) (text : String) : String :=
  String.ofList ('"' :: (text.toList.flatMap escape ++ ['"']))

def quoteJson (text : String) : String := quote escapeJson text

def quoteListing (text : String) : String := quote escapeListing text

end EventCuts.Text
