import EventCuts.Proofs.Conversion
import EventCuts.Proofs.Patterns
import Mathlib.Algebra.BigOperators.Fin
import Mathlib.Data.Nat.Digits.Defs
import Mathlib.Tactic.Ring

/-!
# The value of hexadecimal literals

A hexadecimal literal is read by two loops, one for the digits in front of the point and one for
those behind it. With exact operations each gives the sum of the digits by their places, and the
literal has that sum times a power of two for its value.
-/

namespace EventCuts

open Literal (isHexDigit isHexMark isBinaryMark Run HexParts)

namespace Literal

def hexDigit (c : Char) : Nat := "0123456789abcdef".toList.idxOf c.toLower

/-- Each digit counts by its distance from the point. -/
def positional (whole fraction : List Char) : ℚ :=
  ∑ k : Fin whole.reverse.length, (hexDigit whole.reverse[k] : ℚ) * 16 ^ (k : ℕ) +
    ∑ k : Fin fraction.length, (hexDigit fraction[k] : ℚ) * 16 ^ (-(k + 1 : ℤ))

theorem digitValue_eq_hexDigit {c : Char} (h : isHexDigit c = true) :
    Reading.digitValue c = hexDigit c := by
  have hall : Pattern.hexDigits.map Reading.digitValue = Pattern.hexDigits.map hexDigit := by decide
  exact List.map_inj_left.1 hall c (Pattern.mem_hexDigits.1 h)

theorem map_digitValue {digits : List Char} (h : Run isHexDigit digits) :
    digits.map Reading.digitValue = digits.map hexDigit :=
  List.map_congr_left fun c hc => digitValue_eq_hexDigit (h c hc)

theorem sum_digits (base : ℚ) (digits : List Char) :
    ∑ k : Fin digits.length, (hexDigit digits[k] : ℚ) * base ^ (k : ℕ) =
      Nat.ofDigits base (digits.map hexDigit) := by
  induction digits with
  | nil => rfl
  | cons c digits ih =>
    have hnext : ∀ k : Fin digits.length, (hexDigit digits[k] : ℚ) * base ^ (k + 1 : ℕ) =
        base * (hexDigit digits[k] * base ^ (k : ℕ)) := by
      intro k
      ring
    rw [List.map_cons, Nat.ofDigits, ← ih, Finset.mul_sum]
    calc ∑ k : Fin (digits.length + 1), (hexDigit (c :: digits)[k] : ℚ) * base ^ (k : ℕ)
        = hexDigit c * base ^ 0 +
            ∑ k : Fin digits.length, (hexDigit digits[k] : ℚ) * base ^ (k + 1 : ℕ) :=
          Fin.sum_univ_succ _
      _ = hexDigit c + ∑ k : Fin digits.length, base * (hexDigit digits[k] * base ^ (k : ℕ)) := by
          rw [pow_zero, mul_one, Finset.sum_congr rfl fun k _ => hnext k]

theorem positional_eq (whole fraction : List Char) :
    positional whole fraction = Nat.ofDigits (16 : ℚ) (whole.map hexDigit).reverse +
      1 / 16 * Nat.ofDigits (1 / 16 : ℚ) (fraction.map hexDigit) := by
  have hplace : ∀ k : Fin fraction.length, (hexDigit fraction[k] : ℚ) * 16 ^ (-(k + 1 : ℤ)) =
      1 / 16 * (hexDigit fraction[k] * (1 / 16) ^ (k : ℕ)) := by
    intro k
    have hpow : (16 : ℚ) ^ (-(k + 1 : ℤ)) = (1 / 16) ^ ((k : ℕ) + 1) := by
      rw [one_div, inv_pow, zpow_neg]
      norm_cast
    rw [hpow]
    ring
  rw [positional, sum_digits, Finset.sum_congr rfl fun k _ => hplace k, ← Finset.mul_sum,
    sum_digits, List.map_reverse]

namespace HexParts

variable {text whole fraction : List Char} {n : Int}

theorem run (h : HexParts text whole fraction n) :
    Run isHexDigit whole ∧ Run isHexDigit fraction := by
  obtain ⟨_, _, _, hparts, _⟩ := h
  exact List.forall_mem_append.1 hparts.digits

theorem exponent_eq_zero (h : HexParts text whole fraction n)
    (hnone : ∀ c ∈ text, isBinaryMark c = false) : n = 0 := by
  obtain ⟨first, _, _, ⟨_, _, mantissa, scale, _, hscale, rfl⟩, rfl⟩ := h
  cases hscale with
  | none => rfl
  | @mark c exponent _ hc _ =>
    have hmem : c ∈ '0' :: first :: (mantissa ++ c :: exponent) := by simp
    rw [hnone c hmem] at hc
    cases hc

end HexParts

end Literal

namespace Arithmetic

theorem wholeValue_rational (digits : List Nat) :
    rational.wholeValue digits = Nat.ofDigits (16 : ℚ) digits.reverse := by
  induction digits using List.reverseRecOn with
  | nil => exact Nat.cast_zero
  | append_singleton digits digit ih =>
    have hround : rational.wholeValue (digits ++ [digit]) =
        rational.wholeValue digits * 16 + digit := by
      rw [wholeValue, List.foldl_append]
      rfl
    rw [hround, ih, List.reverse_append, List.reverse_singleton, List.singleton_append,
      Nat.ofDigits]
    ring

theorem addFraction_rational (digits : List Nat) (scale value : ℚ) :
    rational.addFraction digits scale value =
      value + scale * Nat.ofDigits (1 / 16 : ℚ) digits := by
  induction digits generalizing scale value with
  | nil => rw [addFraction, Nat.ofDigits, mul_zero, add_zero]
  | cons digit digits ih =>
    have hround : rational.addFraction (digit :: digits) scale value =
        rational.addFraction digits (scale / 16) (value + digit * scale) := rfl
    rw [hround, ih, Nat.ofDigits]
    ring

theorem twoPow_rational (n : Int) : rational.twoPow n = 2 ^ n := by
  cases n with
  | ofNat n => exact (zpow_natCast 2 n).symm
  | negSucc n => exact (one_div _).trans (zpow_negSucc 2 n).symm

theorem hexValue_rational (whole fraction : List Nat) (n : Int) :
    rational.hexValue whole fraction n = (Nat.ofDigits (16 : ℚ) whole.reverse +
      1 / 16 * Nat.ofDigits (1 / 16 : ℚ) fraction) * 2 ^ n := by
  rw [← wholeValue_rational, ← twoPow_rational]
  exact congrArg (· * rational.twoPow n) (addFraction_rational fraction (1 / 16) _)

end Arithmetic

namespace Reading

variable {α : Type} {text whole fraction : List Char} {n : Int}

/-- A hexadecimal text is read in a given arithmetic. -/
def hexadecimal? (a : Arithmetic α) : List Char → Option α
  | '0' :: mark :: digits => if isHexMark mark then hex? a digits else none
  | _ => none

theorem hexadecimal?_parts (a : Arithmetic α) (h : HexParts text whole fraction n) :
    hexadecimal? a text =
      if fitsBinaryExponent n then
        some (a.hexValue (whole.map digitValue) (fraction.map digitValue) n)
      else none := by
  obtain ⟨mark, digits, hmark, hparts, rfl⟩ := h
  exact (if_pos hmark).trans (hex?_parts a hparts)

theorem chars?_eq_hexadecimal? (h : HexParts text whole fraction n) :
    chars? text = hexadecimal? .float text :=
  (chars?_hexadecimal h).trans (hexadecimal?_parts .float h).symm

theorem hexadecimal?_rational (h : HexParts text whole fraction n)
    (hn : fitsBinaryExponent n = true) :
    hexadecimal? .rational text = some (Literal.positional whole fraction * 2 ^ n) := by
  obtain ⟨hwhole, hfraction⟩ := h.run
  rw [hexadecimal?_parts .rational h, if_pos hn, Arithmetic.hexValue_rational,
    Literal.map_digitValue hwhole, Literal.map_digitValue hfraction, Literal.positional_eq]

end Reading

/-- A number that starts like a hexadecimal literal is one. Read with exact operations in place of
those on floats it is the sum of its digits by their places, times the power of two that its
exponent names. -/
theorem readNumber_positional {source : String} {l : Lexeme} (hl : l ∈ Lexeme.ofSource source)
    (hk : l.kind = .number) {mark : Char} {digits : List Char} (hmark : isHexMark mark = true)
    (htext : l.text.toList = '0' :: mark :: digits) :
    readNumber l.text = Reading.hexadecimal? .float l.text.toList ∧
    (∃ whole fraction n, HexParts l.text.toList whole fraction n) ∧
    ∀ whole fraction n, HexParts l.text.toList whole fraction n →
      ((∀ c ∈ l.text.toList, isBinaryMark c = false) → n = 0) ∧
      (-2 ^ 31 ≤ n → n < 2 ^ 31 → Reading.hexadecimal? .rational l.text.toList =
        some (Literal.positional whole fraction * 2 ^ n)) := by
  have hhex : Literal.Hexadecimal l.text.toList := by
    rcases Lexeme.isLiteral_of_mem_ofSource hl hk with hdecimal | hhex
    · rw [htext] at hdecimal
      exact absurd hdecimal (Reading.not_numeral_of_hexMark hmark)
    · exact hhex
  obtain ⟨whole, fraction, n, hparts⟩ := hhex.parts
  refine ⟨Reading.chars?_eq_hexadecimal? hparts, ⟨whole, fraction, n, hparts⟩, ?_⟩
  intro whole fraction n h
  refine ⟨h.exponent_eq_zero, fun hlow hhigh => Reading.hexadecimal?_rational h ?_⟩
  rw [fitsBinaryExponent_iff]
  omega

theorem readNumber_positional_both_cases :
    ⟨.number, "0XfF.8p-1"⟩ ∈ Lexeme.ofSource "v*0XfF.8p-1" ∧
      Reading.hexadecimal? .rational "0XfF.8p-1".toList = some (511 / 4) := by
  have hl : ⟨.number, "0XfF.8p-1"⟩ ∈ Lexeme.ofSource "v*0XfF.8p-1" := by
    decide +kernel
  have hmark : isHexMark 'X' = true := rfl
  obtain ⟨-, -, hvalue⟩ := readNumber_positional hl rfl hmark rfl
  have hexponent : Literal.Signed "-1".toList (-Nat.ofDigitChars 10 ['1'] 0) :=
    .minus (List.cons_ne_nil _ _) (List.all_eq_true.1 rfl)
  have hone : Nat.ofDigitChars 10 ['1'] 0 = 1 := by decide +kernel
  have hparts : HexParts "0XfF.8p-1".toList ['f', 'F'] ['8'] (-Nat.ofDigitChars 10 ['1'] 0) :=
    ⟨'X', "fF.8p-1".toList, rfl,
      ⟨List.all_eq_true.1 rfl, List.cons_ne_nil _ _, "fF.8".toList, "p-1".toList,
        .point ['8'], .mark rfl hexponent, rfl⟩, rfl⟩
  rw [hone] at hparts
  have hsum : Literal.positional ['f', 'F'] ['8'] = 511 / 2 := by
    have hf : Literal.hexDigit 'f' = 15 := by decide
    have hF : Literal.hexDigit 'F' = 15 := by decide
    have h8 : Literal.hexDigit '8' = 8 := by decide
    norm_num [Literal.positional_eq, Nat.ofDigits, hf, hF, h8]
  refine ⟨hl, ((hvalue _ _ _ hparts).2 (by norm_num) (by norm_num)).trans ?_⟩
  rw [hsum]
  norm_num

end EventCuts
