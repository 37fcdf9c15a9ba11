import EventCuts.Expr.Basic
import EventCuts.Proofs.Floats
import EventCuts.Proofs.Lexing
import EventCuts.Proofs.Readings

/-!
# The numerals of natural numbers

A natural number in decimal digits is one lexeme. It is read as the number itself when a
float holds it exactly, and as an index it then selects the entry of that number.
-/

namespace EventCuts

open Literal (isDigit Run)

theorem run_toDigits (k : Nat) : Run isDigit (Nat.toDigits 10 k) := by
  intro c hc
  have hdigit := Nat.isDigit_of_mem_toDigits (by decide) (by decide) hc
  simp only [Char.isDigit, Bool.and_eq_true, decide_eq_true_eq] at hdigit
  simp only [isDigit, Bool.and_eq_true, decide_eq_true_eq]
  exact hdigit

theorem chars?_digits {ds : List Char} (hne : ds ≠ []) (hd : Run isDigit ds) :
    Reading.chars? ds = some (Decimal.toFloat false ⟨Reading.natValue ds, 0⟩) := by
  have hall : Run isDigit (ds ++ []) ∧ ds ++ [] ≠ [] := by
    rw [List.append_nil]
    exact ⟨hd, hne⟩
  have hread := Reading.chars?_decimal (Literal.Pointed.none.parts hall.1 hall.2)
  rwa [List.append_nil] at hread

/-- A number that is not rounded when it is read. -/
def Representable (k : Nat) : Prop :=
  ∃ x, Exact.ofFloat x = .finite false (k * Exact.stepsInOne)

theorem representable_of_lt {k : Nat} (h : k < 2 ^ 53) : Representable k := by
  rcases Nat.eq_zero_or_pos k with rfl | hpos
  · refine ⟨Exact.packSteps false 0 0, ?_⟩
    rw [Nat.zero_mul]
    decide +kernel
  · have hne := Nat.ne_of_gt hpos
    have hlog : k.log2 < 53 := (Nat.log2_lt hne).2 h
    have hpow : 2 ^ k.log2 ≤ k := (Nat.le_log2 hne).1 (Nat.le_refl _)
    have hnext : k < 2 ^ (k.log2 + 1) := (Nat.log2_lt hne).1 (Nat.lt_succ_self _)
    have hlow : 2 ^ 52 ≤ k * 2 ^ (52 - k.log2) := by
      calc 2 ^ 52 = 2 ^ k.log2 * 2 ^ (52 - k.log2) := by rw [← Nat.pow_add]; congr 1; omega
        _ ≤ k * 2 ^ (52 - k.log2) := Nat.mul_le_mul_right _ hpow
    have hhigh : k * 2 ^ (52 - k.log2) < 2 ^ 53 := by
      calc k * 2 ^ (52 - k.log2) < 2 ^ (k.log2 + 1) * 2 ^ (52 - k.log2) :=
            Nat.mul_lt_mul_of_pos_right hnext (Nat.two_pow_pos _)
        _ = 2 ^ 53 := by rw [← Nat.pow_add]; congr 1; omega
    have hsteps := Exact.stepsInOne_eq (n := 52 - k.log2 + (1022 + k.log2)) (by omega)
    refine ⟨Exact.packSteps false (k * 2 ^ (52 - k.log2)) (1022 + k.log2), ?_⟩
    rw [Exact.ofFloat_packSteps false hlow hhigh (by omega), hsteps,
      Nat.pow_add 2 (52 - k.log2), Nat.mul_assoc]

theorem toFloat_digits (k : Nat) :
    Decimal.toFloat false ⟨k, 0⟩ = Exact.nearest false (k * Exact.stepsInOne) 1 := by
  rcases Nat.eq_zero_or_pos k with rfl | hpos
  · have hzero := @Exact.nearest_of_fits false 0 0 (by decide) (.inr rfl)
    rw [Nat.zero_mul] at hzero ⊢
    exact hzero.symm
  · have hlow : ¬ (0 : Int) < -(2048 + k.log2 : Int) := by omega
    simp only [Decimal.toFloat, Nat.ne_of_gt hpos, if_false, hlow]
    rw [if_neg (by decide)]
    simp

theorem readNumber_toString {k : Nat} {x : Float}
    (hx : Exact.ofFloat x = .finite false (k * Exact.stepsInOne)) :
    readNumber (toString k) = some x := by
  have hchars := chars?_digits Nat.toDigits_ne_nil (run_toDigits k)
  rw [natValue_eq (run_toDigits k), Nat.ofDigitChars_ten_toDigits, toFloat_digits,
    Exact.nearest_of_ofFloat hx] at hchars
  rw [readNumber, Nat.toString_eq_repr, Nat.toList_repr, hchars]

theorem position?_of_ofFloat {k : Nat} {x : Float}
    (hx : Exact.ofFloat x = .finite false (k * Exact.stepsInOne)) : position? x = some k := by
  have hwhole : Exact.whole (k * Exact.stepsInOne) = k := by
    rw [Exact.whole, Nat.mul_div_cancel k Exact.stepsInOne_pos]
  simp only [position?, hx, hwhole]

theorem position?_toString {k : Nat} (h : Representable k) :
    ∃ x, readNumber (toString k) = some x ∧ position? x = some k := by
  obtain ⟨x, hx⟩ := h
  exact ⟨x, readNumber_toString hx, position?_of_ofFloat hx⟩

theorem scan_literal {c : Char} {ds : List Char} (hc : isDigit c = true)
    (hlit : Literal.IsLiteral (c :: ds)) : Lexeme.scan c ds = (.number, ds.length) := by
  have hdigraph : Lexeme.digraphAt c ds = none := by
    cases ds with
    | nil => rfl
    | cons d ds =>
      simp only [Lexeme.digraphAt, Kind.ofDigraph]
      split
      all_goals first | rfl | exact absurd hc (by decide)
  have hpunctuation : Kind.ofPunctuation c = none :=
    forall_digit (P := fun c => Kind.ofPunctuation c = none) (by decide) hc
  have hname : Lexeme.isNameStart c = false :=
    forall_digit (P := fun c => Lexeme.isNameStart c = false) (by decide) hc
  have hlength : Literal.length (c :: ds) = ds.length + 1 := by
    obtain ⟨hpos, hbound⟩ := Literal.length_longest (c :: ds)
    have hle : ds.length + 1 ≤ Literal.length (c :: ds) := hbound _ hlit (List.prefix_refl _)
    obtain ⟨⟨p, _, hp, hlen⟩, _⟩ := hpos (by omega)
    have hge : p.length ≤ ds.length + 1 := hp.length_le
    omega
  simp only [Lexeme.scan, hdigraph, hpunctuation, hname, hlength]
  rfl

theorem lexed_literal {c : Char} {ds : List Char} (hc : isDigit c = true)
    (hlit : Literal.IsLiteral (c :: ds)) :
    Lexeme.Lexed [⟨.number, String.ofList (c :: ds)⟩] := by
  rw [Lexeme.Lexed, Lexeme.chars_cons, Lexeme.chars_nil, List.append_nil, String.toList_ofList,
    Lexeme.cut_cons, scan_literal hc hlit, List.take_length, List.drop_length, Lexeme.cut]

theorem isLiteral_of_mantissa {text : List Char} (h : Literal.Mantissa isDigit text) :
    Literal.IsLiteral text :=
  .inl ⟨text, [], h, .inl rfl, (List.append_nil _).symm⟩

theorem lexed_toString (k : Nat) : Lexeme.Lexed [⟨.number, toString k⟩] := by
  have hrun := run_toDigits k
  have htext : toString k = String.ofList (Nat.toDigits 10 k) := by
    rw [← String.toList_inj, Nat.toString_eq_repr, Nat.toList_repr, String.toList_ofList]
  rw [htext]
  cases hds : Nat.toDigits 10 k with
  | nil => exact absurd hds Nat.toDigits_ne_nil
  | cons c ds =>
    rw [hds] at hrun
    exact lexed_literal (hrun c List.mem_cons_self)
      (isLiteral_of_mantissa (.inl ⟨List.cons_ne_nil c ds, hrun⟩))

end EventCuts
