import EventCuts.Proofs.Bytes
import EventCuts.Proofs.Readings
import Mathlib.Computability.RegularExpressions

/-!
# Literals as regular expressions

Two regular expressions, one for decimal literals and one for hexadecimal ones. Together they
match the language of literals, so that the scan measures the longest match at the front of a
text, by its characters and by its bytes alike.
-/

namespace EventCuts.Literal

open RegularExpression (char)

abbrev Pattern := RegularExpression Char

namespace Pattern

variable {accepts isMark : Char → Bool} {p d : Pattern} {x : List Char}

def oneOf (cs : List Char) : Pattern := cs.foldr (fun c p => char c + p) 0

def maybe (p : Pattern) : Pattern := 1 + p

def any (p : Pattern) : Pattern := p.star

def many (p : Pattern) : Pattern := p * any p

def digits : List Char := ['0', '1', '2', '3', '4', '5', '6', '7', '8', '9']

def hexDigits : List Char :=
  digits ++ ['a', 'b', 'c', 'd', 'e', 'f', 'A', 'B', 'C', 'D', 'E', 'F']

/-- With `D` for a digit, `D+(\.D*)?|\.D+`. -/
def mantissa (d : Pattern) : Pattern := many d * maybe (char '.' * any d) + char '.' * many d

/-- One of the marks, and then `[+-]?D+`. -/
def exponent (marks : List Char) : Pattern :=
  oneOf marks * (maybe (oneOf ['+', '-']) * many (oneOf digits))

def numeral (d : Pattern) (marks : List Char) : Pattern := mantissa d * maybe (exponent marks)

def decimal : Pattern := numeral (oneOf digits) ['e', 'E']

def hexadecimal : Pattern :=
  char '0' * (oneOf ['x', 'X'] * numeral (oneOf hexDigits) ['p', 'P'])

def Denotes (p : Pattern) (accepts : Char → Bool) : Prop :=
  ∀ x, x ∈ p.matches' ↔ ∃ c, accepts c = true ∧ x = [c]

theorem mem_oneOf {cs : List Char} : x ∈ (oneOf cs).matches' ↔ ∃ c ∈ cs, x = [c] := by
  induction cs with
  | nil => exact iff_of_false id (by simp)
  | cons c cs ih =>
    rw [oneOf, List.foldr_cons, ← oneOf, RegularExpression.matches'_add, Language.mem_add, ih]
    simp only [List.mem_cons, exists_eq_or_imp]
    exact Iff.rfl

theorem denotes_oneOf {cs : List Char} (h : ∀ c, accepts c = true ↔ c ∈ cs) :
    Denotes (oneOf cs) accepts := by
  intro x
  simp only [h]
  exact mem_oneOf

theorem mem_mul : x ∈ (p * d).matches' ↔ ∃ y z, y ∈ p.matches' ∧ z ∈ d.matches' ∧ x = y ++ z := by
  rw [RegularExpression.matches'_mul, Language.mem_mul]
  constructor
  · rintro ⟨y, hy, z, hz, rfl⟩
    exact ⟨y, z, hy, hz, rfl⟩
  · rintro ⟨y, z, hy, hz, rfl⟩
    exact ⟨y, hy, z, hz, rfl⟩

theorem mem_char_mul {c : Char} : x ∈ (char c * p).matches' ↔ ∃ y ∈ p.matches', x = c :: y := by
  rw [mem_mul]
  constructor
  · rintro ⟨_, y, rfl, hy, rfl⟩
    exact ⟨y, hy, rfl⟩
  · rintro ⟨y, hy, rfl⟩
    exact ⟨[c], y, rfl, hy, rfl⟩

theorem Denotes.mem_mul (h : Denotes d accepts) :
    x ∈ (d * p).matches' ↔ ∃ c y, accepts c = true ∧ y ∈ p.matches' ∧ x = c :: y := by
  rw [Pattern.mem_mul]
  constructor
  · rintro ⟨front, y, hfront, hy, rfl⟩
    obtain ⟨c, hc, rfl⟩ := (h front).1 hfront
    exact ⟨c, y, hc, hy, rfl⟩
  · rintro ⟨c, y, hc, hy, rfl⟩
    exact ⟨[c], y, (h [c]).2 ⟨c, hc, rfl⟩, hy, rfl⟩

theorem mem_maybe : x ∈ (maybe p).matches' ↔ x = [] ∨ x ∈ p.matches' := Iff.rfl

theorem Denotes.mem_any (h : Denotes d accepts) : x ∈ (any d).matches' ↔ Run accepts x := by
  rw [any, RegularExpression.matches'_star, Language.mem_kstar]
  constructor
  · rintro ⟨parts, rfl, hparts⟩ c hc
    obtain ⟨part, hpart, hc⟩ := List.mem_flatten.1 hc
    obtain ⟨a, ha, rfl⟩ := (h part).1 (hparts part hpart)
    rw [List.mem_singleton.1 hc]
    exact ha
  · intro hx
    refine ⟨x.map fun c => [c], ?_, ?_⟩
    · exact (List.flatMap_singleton' x).symm
    · intro part hpart
      obtain ⟨c, hc, rfl⟩ := List.mem_map.1 hpart
      exact (h [c]).2 ⟨c, hx c hc, rfl⟩

theorem Denotes.mem_many (h : Denotes d accepts) :
    x ∈ (many d).matches' ↔ x ≠ [] ∧ Run accepts x := by
  rw [many, h.mem_mul]
  simp only [h.mem_any]
  constructor
  · rintro ⟨c, y, hc, hy, rfl⟩
    exact ⟨List.cons_ne_nil c y, List.forall_mem_cons.2 ⟨hc, hy⟩⟩
  · rintro ⟨hne, hx⟩
    obtain ⟨c, y, rfl⟩ := List.exists_cons_of_ne_nil hne
    obtain ⟨hc, hy⟩ := List.forall_mem_cons.1 hx
    exact ⟨c, y, hc, hy, rfl⟩

theorem Denotes.mem_maybe (h : Denotes d accepts) :
    x ∈ (maybe d).matches' ↔ x.length ≤ 1 ∧ Run accepts x := by
  rw [Pattern.mem_maybe, h x]
  constructor
  · rintro (rfl | ⟨c, hc, rfl⟩)
    · exact ⟨Nat.zero_le 1, nofun⟩
    · exact ⟨Nat.le_refl 1, List.forall_mem_singleton.2 hc⟩
  · rintro ⟨hlength, hx⟩
    rcases x with _ | ⟨c, _ | ⟨_, _⟩⟩
    · exact .inl rfl
    · exact .inr ⟨c, hx c List.mem_cons_self, rfl⟩
    · simp only [List.length_cons] at hlength
      omega

theorem Denotes.mem_mantissa (h : Denotes d accepts) :
    x ∈ (mantissa d).matches' ↔ Mantissa accepts x := by
  rw [mantissa, RegularExpression.matches'_add, Language.mem_add, Pattern.mem_mul]
  simp only [Pattern.mem_maybe, mem_char_mul, h.mem_many, h.mem_any]
  constructor
  · rintro (⟨whole, _, ⟨hne, hwhole⟩, rfl | ⟨fraction, hfraction, rfl⟩, rfl⟩ |
      ⟨fraction, ⟨hne, hfraction⟩, rfl⟩)
    · rw [List.append_nil]
      exact .inl ⟨hne, hwhole⟩
    · exact .inr ⟨whole, fraction, hwhole, hfraction, List.append_ne_nil_of_left_ne_nil hne _, rfl⟩
    · exact .inr ⟨[], fraction, nofun, hfraction, hne, rfl⟩
  · rintro (⟨hne, hwhole⟩ | ⟨whole, fraction, hwhole, hfraction, hne, rfl⟩)
    · exact .inl ⟨x, [], ⟨hne, hwhole⟩, .inl rfl, (List.append_nil x).symm⟩
    · rcases List.eq_nil_or_concat whole with rfl | ⟨_, _, rfl⟩
      · exact .inr ⟨fraction, ⟨hne, hfraction⟩, rfl⟩
      · exact .inl ⟨_, '.' :: fraction, ⟨by simp, hwhole⟩, .inr ⟨fraction, hfraction, rfl⟩, rfl⟩

theorem mem_digits {c : Char} : isDigit c = true ↔ c ∈ digits := by
  have hdigits : digits.all isDigit = true := by decide
  exact ⟨digit_cases, List.all_eq_true.1 hdigits c⟩

theorem mem_range {c : Char} {low k : Nat} (hlow : low ≤ c.toNat) (hhigh : c.toNat < low + k) :
    c ∈ (List.range k).map fun i => Char.ofNat (low + i) := by
  refine List.mem_map.2 ⟨c.toNat - low, List.mem_range.2 (by omega), ?_⟩
  rw [Nat.add_sub_cancel' hlow, Char.ofNat_toNat]

theorem mem_hexDigits {c : Char} : isHexDigit c = true ↔ c ∈ hexDigits := by
  have hdigits : hexDigits.all isHexDigit = true := by decide
  have hlower : (List.range 6).map (fun i => Char.ofNat (97 + i)) ⊆ hexDigits := by decide
  have hupper : (List.range 6).map (fun i => Char.ofNat (65 + i)) ⊆ hexDigits := by decide
  refine ⟨fun h => ?_, List.all_eq_true.1 hdigits c⟩
  simp only [isHexDigit, Bool.or_eq_true, Bool.and_eq_true, decide_eq_true_eq] at h
  rcases h with (h | ⟨hlow, hhigh⟩) | ⟨hlow, hhigh⟩
  · exact List.mem_append_left _ (mem_digits.1 h)
  · exact hlower (mem_range hlow (Nat.lt_succ_of_le hhigh))
  · exact hupper (mem_range hlow (Nat.lt_succ_of_le hhigh))

theorem denotes_digits : Denotes (oneOf digits) isDigit := denotes_oneOf fun _ => mem_digits

theorem mem_exponent {marks : List Char} (h : Denotes (oneOf marks) isMark) :
    x ∈ (exponent marks).matches' ↔ Exponent isMark x := by
  have hsign : Denotes (oneOf ['+', '-']) isSign := denotes_oneOf fun c => by simp [isSign]
  rw [exponent, h.mem_mul]
  simp only [Pattern.mem_mul, hsign.mem_maybe, denotes_digits.mem_many]
  constructor
  · rintro ⟨mark, _, hmark, ⟨sign, digits, ⟨hlength, hs⟩, ⟨hne, hd⟩, rfl⟩, rfl⟩
    exact ⟨mark, sign, digits, hmark, hlength, hs, hne, hd, rfl⟩
  · rintro ⟨mark, sign, digits, hmark, hlength, hs, hne, hd, rfl⟩
    exact ⟨mark, _, hmark, ⟨sign, digits, ⟨hlength, hs⟩, ⟨hne, hd⟩, rfl⟩, rfl⟩

theorem mem_numeral {marks : List Char} (h : Denotes d accepts)
    (hmarks : Denotes (oneOf marks) isMark) :
    x ∈ (numeral d marks).matches' ↔ Numeral accepts isMark x := by
  rw [numeral, Pattern.mem_mul]
  simp only [Pattern.mem_maybe, h.mem_mantissa, mem_exponent hmarks]
  constructor
  · rintro ⟨m, e, hm, he, rfl⟩
    exact ⟨m, e, hm, he, rfl⟩
  · rintro ⟨m, e, hm, he, rfl⟩
    exact ⟨m, e, hm, he, rfl⟩

theorem mem_decimal : x ∈ decimal.matches' ↔ Numeral isDigit isDecimalMark x :=
  mem_numeral denotes_digits (denotes_oneOf fun c => by simp [isDecimalMark])

theorem mem_hexadecimal : x ∈ hexadecimal.matches' ↔ Hexadecimal x := by
  have hdigits : Denotes (oneOf hexDigits) isHexDigit := denotes_oneOf fun _ => mem_hexDigits
  have hmark : Denotes (oneOf ['x', 'X']) isHexMark := denotes_oneOf fun c => by simp [isHexMark]
  have hbinary : Denotes (oneOf ['p', 'P']) isBinaryMark :=
    denotes_oneOf fun c => by simp [isBinaryMark]
  rw [hexadecimal, mem_char_mul]
  simp only [hmark.mem_mul, mem_numeral hdigits hbinary]
  constructor
  · rintro ⟨_, ⟨mark, digits, hmark, hd, rfl⟩, rfl⟩
    exact ⟨mark, digits, hmark, hd, rfl⟩
  · rintro ⟨mark, digits, hmark, hd, rfl⟩
    exact ⟨_, ⟨mark, digits, hmark, hd, rfl⟩, rfl⟩

end Pattern

/-- One of the two regular expressions matches the whole text. -/
def Matches (text : List Char) : Prop :=
  text ∈ Pattern.hexadecimal.matches' ∨ text ∈ Pattern.decimal.matches'

theorem matches_iff (text : List Char) : Matches text ↔ IsLiteral text := by
  rw [Matches, Pattern.mem_hexadecimal, Pattern.mem_decimal, IsLiteral]
  exact Or.comm

/-- What the scan measures is the longest front of the text that one of the regular expressions
matches, and nothing exactly when they match no front but perhaps the empty one. It is a number of
characters and of bytes, and the scan finds it over the bytes as well. -/
theorem length_longest_match (s : String) :
    (0 < length s.toList → Longest Matches s.toList (length s.toList)) ∧
      (length s.toList = 0 ↔ ∀ p, p <+: s.toList → p ≠ [] → ¬ Matches p) ∧
      Bytes.size (s.toList.take (length s.toList)) = length s.toList ∧
      length (Bytes.chars s.toList) = length s.toList := by
  obtain ⟨hpos, hbound⟩ := length_longest s.toList
  refine ⟨fun hn => ?_, ⟨fun hn p hfront hne hp => ?_, fun hnone => ?_⟩, ?_,
    Bytes.length_literal_chars _⟩
  · obtain ⟨⟨p, hp, hfront⟩, hlongest⟩ := hpos hn
    exact ⟨⟨p, (matches_iff p).2 hp, hfront⟩, fun q hq => hlongest q ((matches_iff q).1 hq)⟩
  · have hle := hbound p ((matches_iff p).1 hp) hfront
    have hlength := List.length_pos_iff.2 hne
    omega
  · apply Nat.eq_zero_of_not_pos
    intro hn
    obtain ⟨⟨p, hp, hfront, hlength⟩, _⟩ := hpos hn
    exact hnone p hfront (List.length_pos_iff.1 (hlength ▸ hn)) ((matches_iff p).2 hp)
  · rcases Nat.eq_zero_or_pos (length s.toList) with hz | hn
    · rw [hz, List.take_zero, Bytes.size_nil]
    · obtain ⟨⟨p, hp, hfront, hlength⟩, _⟩ := hpos hn
      have htake : s.toList.take (length s.toList) = p := by
        rw [List.prefix_iff_eq_take.1 hfront, hlength]
      rw [htake, Bytes.size_of_small fun c hc => Bytes.utf8Size_of_uses (hp.uses c hc), hlength]

example : Pattern.hexadecimal.rmatch "0x1.p+07".toList = true ∧
    Pattern.hexadecimal.rmatch "0x1p".toList = false ∧ length "0x1p".toList = 3 := by
  decide +kernel

end EventCuts.Literal
