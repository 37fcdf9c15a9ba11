/-!
# Blanks

The characters with the Unicode property `White_Space`. An expression may be
written with blanks anywhere, also inside a name or a number; they are removed
before anything looks at the text.
-/

namespace EventCuts.Text

def inRanges (ranges : List (Nat × Nat)) (point : Nat) : Bool :=
  ranges.any fun range => range.1 ≤ point && point ≤ range.2

def blankRanges : List (Nat × Nat) :=
  [(0x09, 0x0D), (0x20, 0x20), (0x85, 0x85), (0xA0, 0xA0), (0x1680, 0x1680),
    (0x2000, 0x200A), (0x2028, 0x2029), (0x202F, 0x202F), (0x205F, 0x205F), (0x3000, 0x3000)]

def isBlank (c : Char) : Bool := inRanges blankRanges c.toNat

def stripBlanks (text : String) : String :=
  String.ofList (text.toList.filter fun c => !isBlank c)

theorem toList_stripBlanks (text : String) :
    (stripBlanks text).toList = text.toList.filter fun c => !isBlank c := by
  simp [stripBlanks]

theorem stripBlanks_stripBlanks (text : String) :
    stripBlanks (stripBlanks text) = stripBlanks text := by
  simp [stripBlanks, List.filter_filter]

end EventCuts.Text
