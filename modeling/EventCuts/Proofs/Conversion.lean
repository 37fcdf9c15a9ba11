import EventCuts.Proofs.Munch
import EventCuts.Proofs.Refusals

/-!
# Which literals have a value

The length of a literal is measured by one reader and its value taken by another. They agree on
every form of a literal, except that the value of a hexadecimal one needs an exponent of 32 bits.
-/

namespace EventCuts

open Literal (isDigit isDecimalMark HexParts)

/-- A hexadecimal literal with an exponent that is no 32-bit integer. -/
def Literal.Excessive (text : List Char) : Prop :=
  ∃ whole fraction n, HexParts text whole fraction n ∧ (n < -2 ^ 31 ∨ 2 ^ 31 ≤ n)

variable {C : Type} {schema : Schema C} {text : String}

theorem fitsBinaryExponent_iff (n : Int) :
    Reading.fitsBinaryExponent n = true ↔ ¬ (n < -2 ^ 31 ∨ 2 ^ 31 ≤ n) := by
  have hmin : Int32.minValue.toInt = -2 ^ 31 := rfl
  have hmax : Int32.maxValue.toInt = 2 ^ 31 - 1 := rfl
  rw [Reading.fitsBinaryExponent, hmin, hmax, Bool.and_eq_true, decide_eq_true_eq,
    decide_eq_true_eq]
  omega

theorem readNumber_decimal (h : Literal.Numeral isDigit isDecimalMark text.toList) :
    ∃ x, readNumber text = some x := by
  obtain ⟨whole, fraction, n, hparts⟩ := h.parts
  exact ⟨_, Reading.chars?_decimal hparts⟩

theorem readNumber_hexParts {whole fraction : List Char} {n : Int}
    (h : HexParts text.toList whole fraction n) :
    readNumber text = none ↔ n < -2 ^ 31 ∨ 2 ^ 31 ≤ n := by
  rw [readNumber, Reading.chars?_hexadecimal h]
  split
  · next hfits =>
    exact iff_of_false (Option.some_ne_none _) ((fitsBinaryExponent_iff n).1 hfits)
  · next hfits =>
    rw [fitsBinaryExponent_iff, not_not] at hfits
    exact iff_of_true rfl hfits

theorem Literal.Excessive.readNumber (h : Literal.Excessive text.toList) :
    readNumber text = none := by
  obtain ⟨whole, fraction, n, hparts, hn⟩ := h
  exact (readNumber_hexParts hparts).2 hn

theorem readNumber_literal (h : Literal.IsLiteral text.toList) :
    readNumber text = none ↔ Literal.Excessive text.toList := by
  constructor
  · intro hnone
    rcases h with hdecimal | hhex
    · obtain ⟨x, hx⟩ := readNumber_decimal hdecimal
      rw [hx] at hnone
      cases hnone
    · obtain ⟨whole, fraction, n, hparts⟩ := hhex.parts
      exact ⟨whole, fraction, n, hparts, (readNumber_hexParts hparts).1 hnone⟩
  · exact fun hexcessive => hexcessive.readNumber

theorem Lexeme.isLiteral_of_mem_ofSource {source : String} {l : Lexeme}
    (hl : l ∈ Lexeme.ofSource source) (hk : l.kind = .number) :
    Literal.IsLiteral l.text.toList := by
  have hknown : l.kind ≠ .unknown := by
    rw [hk]
    exact nofun
  cases Lexeme.ruled_of_mem_cut hl hknown with
  | numeric h => exact h.2.1
  | named h =>
    rw [h.1] at hk
    cases hk
  | digraph h =>
    have hkinds : ∀ m ∈ Lexeme.digraphs, m.kind ≠ .number := by decide
    exact absurd hk (hkinds l h)
  | mark h =>
    have hkinds : ∀ m ∈ Lexeme.marks, m.kind ≠ .number := by decide
    exact absurd hk (hkinds l h)

/-- Of the numbers that a text is cut into, only hexadecimal ones with an excessive exponent have
no value. -/
theorem readNumber_of_mem_ofSource {source : String} {l : Lexeme}
    (hl : l ∈ Lexeme.ofSource source) (hk : l.kind = .number) :
    (readNumber l.text = none ↔ Literal.Excessive l.text.toList) ∧
      (Literal.Numeral isDigit isDecimalMark l.text.toList → ∃ x, readNumber l.text = some x) ∧
      (Literal.Hexadecimal l.text.toList → ¬ Literal.Excessive l.text.toList →
        ∃ x, readNumber l.text = some x) ∧
      (Literal.Numeral isDigit isDecimalMark l.text.toList ∨
        Literal.Hexadecimal l.text.toList) := by
  have hliteral := Lexeme.isLiteral_of_mem_ofSource hl hk
  have hnone := readNumber_literal hliteral
  refine ⟨hnone, readNumber_decimal, fun _ hmoderate => ?_, hliteral⟩
  exact Option.ne_none_iff_exists'.1 fun h => hmoderate (hnone.1 h)

theorem readNumber_exponent_of_33_bits : readNumber "0x1.8p2147483648" = none := by
  have hl : ⟨.number, "0x1.8p2147483648"⟩ ∈ Lexeme.ofSource "v < 0x1.8p2147483648" := by
    decide +kernel
  have hread : ∀ n : Int, Literal.Signed "2147483648".toList n → 2 ^ 31 ≤ n →
      readNumber "0x1.8p2147483648" = none := by
    intro n hexponent hn
    have hparts : HexParts "0x1.8p2147483648".toList ['1'] ['8'] n :=
      ⟨'x', "1.8p2147483648".toList, rfl,
        ⟨List.all_eq_true.1 rfl, List.cons_ne_nil _ _, "1.8".toList, "p2147483648".toList,
          .point ['8'], .mark rfl hexponent, rfl⟩, rfl⟩
    exact (readNumber_of_mem_ofSource hl rfl).1.2 ⟨_, _, _, hparts, .inr hn⟩
  have hdigits : Literal.Run isDigit "2147483648".toList := List.all_eq_true.1 rfl
  have hvalue : Nat.ofDigitChars 10 "2147483648".toList 0 = 2 ^ 31 := by
    decide +kernel
  refine hread _ (.plain (List.cons_ne_nil _ _) hdigits) ?_
  rw [hvalue]
  norm_num

theorem excessive_of_invalidNumber {source stripped : String} {span : Span}
    (h : parse schema source = .error (.invalidNumber text span stripped)) :
    ⟨.number, text⟩ ∈ Lexeme.ofSource source ∧ Literal.Excessive text.toList := by
  by_cases hunknown : ∃ l ∈ Lexeme.ofSource source, l.kind = .unknown
  · obtain ⟨front, l, hfirst⟩ := Lexeme.exists_first hunknown
    obtain ⟨back, hsplit⟩ := hfirst.split
    rw [parse_of_unknown hsplit hfirst.holds hfirst.before] at h
    cases h
  have hknown : ∀ l ∈ Lexeme.ofSource source, l.kind ≠ .unknown :=
    fun l hl hkind => hunknown ⟨l, hl, hkind⟩
  by_cases hoffends : ∃ l ∈ Lexeme.ofSource source, leaf? schema l = none
  · obtain ⟨front, ⟨kind, literal⟩, hfirst⟩ := Lexeme.exists_first hoffends
    obtain ⟨back, hsplit⟩ := hfirst.split
    have hleaf := hfirst.holds
    rw [parse_of_leaf hsplit hknown hleaf
      fun m hm => Option.isSome_iff_ne_none.2 (hfirst.before m hm)] at h
    cases kind with
    | number =>
      cases h
      have hl : ⟨.number, literal⟩ ∈ Lexeme.ofSource source := by
        rw [hsplit]
        exact List.mem_append_right _ List.mem_cons_self
      have hliteral := Lexeme.isLiteral_of_mem_ofSource hl rfl
      exact ⟨hl, (readNumber_literal hliteral).1 (Option.map_eq_none_iff.1 hleaf)⟩
    | identifier => cases h
    | _ => cases hleaf
  · have hmeaningful : ∀ l ∈ Lexeme.ofSource source, l.Meaningful schema := by
      intro l hl
      have hleaf := Option.isSome_iff_ne_none.2 fun hnone => hoffends ⟨l, hl, hnone⟩
      exact ⟨hknown l hl, (leaf?_isSome_iff schema l).1 hleaf⟩
    obtain ⟨_, _, _, hunresolved⟩ := unresolved_of_parse hmeaningful h
    cases hunresolved

end EventCuts
