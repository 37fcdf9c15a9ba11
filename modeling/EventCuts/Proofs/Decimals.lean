import EventCuts.Number.Decimal
import EventCuts.Proofs.Floats

/-!
# Decimals that read back

The decimal that a float is written as is read back as that float: the search only takes
decimals that read back, the full expansion does so since its fraction is the float's, and the
zeros at the end of the digits can go into the exponent.
-/

namespace EventCuts

namespace Exact

theorem roundDiv_scale {k : Nat} (hk : 0 < k) (num den : Nat) :
    roundDiv (k * num) (k * den) = roundDiv num den := by
  have hquotient : k * num / (k * den) = num / den := Nat.mul_div_mul_left num den hk
  have hrest : 2 * (k * num % (k * den)) = k * (2 * (num % den)) := by
    rw [Nat.mul_mod_mul_left, Nat.mul_left_comm]
  simp only [roundDiv, hquotient, hrest, Nat.mul_lt_mul_left hk]

theorem nearest_scale (negative : Bool) {k : Nat} (hk : 0 < k) (num den : Nat) :
    nearest negative (k * num) (k * den) = nearest negative num den := by
  have hquotient : k * num / (k * den) = num / den := Nat.mul_div_mul_left num den hk
  simp only [nearest, hquotient, Nat.mul_assoc k den, roundDiv_scale hk]

end Exact

namespace Decimal

/-- Reading forms the power of ten, also when the last zeros of the digits are left out. -/
structure InRange (d : Decimal) : Prop where
  digits_ne : d.digits ≠ 0
  low : -1074 ≤ d.exponent
  high : ∃ n, n ≤ 3122 ∧ d.digits * 10 ^ (d.exponent + 1074).toNat < 10 ^ n

variable {d : Decimal}

theorem InRange.exponent_le (h : d.InRange) : d.exponent ≤ 2048 := by
  obtain ⟨n, hn, hlt⟩ := h.high
  have hpow : 10 ^ (d.exponent + 1074).toNat < 10 ^ n :=
    Nat.lt_of_le_of_lt (Nat.le_mul_of_pos_left _ (Nat.pos_of_ne_zero h.digits_ne)) hlt
  have hexp := (Nat.pow_lt_pow_iff_right (by decide : 1 < 10)).1 hpow
  omega

theorem toFloat_eq (h : d.InRange) (negative : Bool) :
    d.toFloat negative =
      Exact.nearest negative (d.digits * 10 ^ d.exponent.toNat * Exact.stepsInOne)
        (10 ^ (-d.exponent).toNat) := by
  have hhigh := h.exponent_le
  have hlow := h.low
  simp only [toFloat, h.digits_ne, if_false, Nat.pow_eq]
  rw [if_neg (by omega), if_neg (by omega)]

theorem InRange.tenth {digits : Nat} {exponent : Int} (h : InRange ⟨10 * digits, exponent⟩) :
    InRange ⟨digits, exponent + 1⟩ := by
  obtain ⟨n, hn, hlt⟩ := h.high
  have hne := h.digits_ne
  have hlow := h.low
  simp only at hne hlow hlt
  refine ⟨by simp only; omega, by simp only; omega, n, hn, ?_⟩
  have hexponent : (exponent + 1 + 1074).toNat = (exponent + 1074).toNat + 1 := by omega
  have hvalue : digits * 10 ^ ((exponent + 1074).toNat + 1) =
      10 * digits * 10 ^ (exponent + 1074).toNat := by ring
  simp only [hexponent, hvalue]
  exact hlt

theorem toFloat_tenth {digits : Nat} {exponent : Int} (h : InRange ⟨10 * digits, exponent⟩)
    (negative : Bool) :
    toFloat negative ⟨digits, exponent + 1⟩ = toFloat negative ⟨10 * digits, exponent⟩ := by
  rw [toFloat_eq h, toFloat_eq h.tenth]
  simp only
  by_cases hneg : exponent < 0
  · have h0 : exponent.toNat = 0 := by omega
    have h1 : (exponent + 1).toNat = 0 := by omega
    have h2 : (-exponent).toNat = (-(exponent + 1)).toNat + 1 := by omega
    rw [h0, h1, h2, Nat.pow_succ', Nat.mul_assoc 10, Nat.mul_assoc 10,
      Exact.nearest_scale negative (by decide)]
  · have h0 : (exponent + 1).toNat = exponent.toNat + 1 := by omega
    have h1 : (-exponent).toNat = 0 := by omega
    have h2 : (-(exponent + 1)).toNat = 0 := by omega
    have hvalue : digits * 10 ^ (exponent.toNat + 1) = 10 * digits * 10 ^ exponent.toNat := by ring
    rw [h0, h1, h2, hvalue]

theorem InRange.tenfold {digits : Nat} {exponent : Int} (h : InRange ⟨digits, exponent + 1⟩)
    (hlow : -1074 ≤ exponent) : InRange ⟨10 * digits, exponent⟩ := by
  obtain ⟨n, hn, hlt⟩ := h.high
  have hne := h.digits_ne
  simp only at hne hlt
  refine ⟨by simp only; omega, hlow, n, hn, ?_⟩
  have hexponent : (exponent + 1 + 1074).toNat = (exponent + 1074).toNat + 1 := by omega
  have hvalue : 10 * digits * 10 ^ (exponent + 1074).toNat =
      digits * 10 ^ ((exponent + 1074).toNat + 1) := by ring
  rw [hexponent] at hlt
  simp only [hvalue]
  exact hlt

theorem toFloat_expand {digits : Nat} (negative : Bool) (n : Nat) (exponent : Int)
    (h : InRange ⟨digits, exponent + n⟩) (hlow : -1074 ≤ exponent) :
    InRange ⟨digits * 10 ^ n, exponent⟩ ∧
      toFloat negative ⟨digits * 10 ^ n, exponent⟩ = toFloat negative ⟨digits, exponent + n⟩ := by
  induction n generalizing exponent with
  | zero =>
    rw [Nat.pow_zero, Nat.mul_one]
    rw [Int.natCast_zero, Int.add_zero] at h ⊢
    exact ⟨h, rfl⟩
  | succ n ih =>
    have hexponent : exponent + (n + 1 : Nat) = exponent + 1 + n := by omega
    have hdigits : digits * 10 ^ (n + 1) = 10 * (digits * 10 ^ n) := by ring
    rw [hexponent] at h ⊢
    obtain ⟨hr, hf⟩ := ih (exponent + 1) h (by omega)
    rw [hdigits, ← hf]
    exact ⟨hr.tenfold hlow, (toFloat_tenth (hr.tenfold hlow) negative).symm⟩

theorem stripZeros_spec (digits : Nat) (exponent : Int) (h : InRange ⟨digits, exponent⟩)
    (negative : Bool) :
    (stripZeros digits exponent).InRange ∧
      (stripZeros digits exponent).toFloat negative = toFloat negative ⟨digits, exponent⟩ := by
  fun_induction stripZeros digits exponent with
  | case1 digits exponent hz ih =>
    have hten : digits = 10 * (digits / 10) := by omega
    rw [hten] at h
    obtain ⟨hr, hf⟩ := ih h.tenth
    refine ⟨hr, hf.trans ?_⟩
    rw [toFloat_tenth h, ← hten]
  | case2 digits exponent hz => exact ⟨h, rfl⟩

variable {x : Float} {steps : Nat}

theorem readsBack_toFloat (hx : Exact.ofFloat x = .finite false steps)
    (h : readsBack steps d = true) : d.toFloat false = x :=
  Exact.ofFloat_injective (of_decide_eq_true h) hx

theorem digits_ne_of_readsBack (hne : steps ≠ 0) (h : readsBack steps d = true) :
    d.digits ≠ 0 := by
  intro hz
  have hzero : Exact.ofFloat (Exact.packSteps false 0 0) = .finite false 0 := by decide +kernel
  rw [readsBack, toFloat, if_pos hz, hzero] at h
  exact hne (Exact.finite.inj (of_decide_eq_true h)).2.symm

theorem neighbourReadingBack_some {tie : Tie} {full : Decimal} {dropped : Nat}
    (h : neighbourReadingBack tie steps full dropped = some d) :
    readsBack steps d = true ∧
      (d = (neighbours full dropped).1 ∨ d = (neighbours full dropped).2) := by
  simp only [neighbourReadingBack] at h
  split at h
  · next hbelow habove =>
    obtain rfl := Option.some.inj h
    split
    · exact ⟨habove, .inr rfl⟩
    · exact ⟨hbelow, .inl rfl⟩
  · next hbelow _ =>
    obtain rfl := Option.some.inj h
    exact ⟨hbelow, .inl rfl⟩
  · next _ habove =>
    obtain rfl := Option.some.inj h
    exact ⟨habove, .inr rfl⟩
  · cases h

theorem digits_ofSteps {k : Nat} (hk : k = 1074) (steps : Nat) :
    (ofSteps steps).digits = steps * 5 ^ k := by
  rw [ofSteps, ← hk, Nat.pow_eq]

theorem exists_pow_gt (hx : Exact.ofFloat x = .finite false steps) :
    ∃ n, n ≤ 3122 ∧ 2 * (ofSteps steps).digits < 10 ^ n := by
  obtain ⟨n, hn, hlt⟩ := Exact.ofFloat_lt hx
  obtain ⟨k, hk⟩ : ∃ k, k = 1074 := ⟨1074, rfl⟩
  obtain ⟨m, hm⟩ : ∃ m, m = 2099 := ⟨2099, rfl⟩
  refine ⟨m, by omega, ?_⟩
  have htwo : 2 * steps < 2 ^ (n + 1) := by
    rw [Nat.pow_succ']
    exact Nat.mul_lt_mul_of_pos_left hlt (by decide)
  calc 2 * (ofSteps steps).digits = 2 * steps * 5 ^ k := by rw [digits_ofSteps hk, Nat.mul_assoc]
    _ < 2 ^ (n + 1) * 5 ^ k := Nat.mul_lt_mul_of_pos_right htwo (Nat.pow_pos (by decide))
    _ ≤ 2 ^ m * 5 ^ m := Nat.mul_le_mul (Nat.pow_le_pow_right (by decide) (by omega))
        (Nat.pow_le_pow_right (by decide) (by omega))
    _ = 10 ^ m := (Nat.mul_pow 2 5 m).symm

theorem digits_ofSteps_ne (hne : steps ≠ 0) : (ofSteps steps).digits ≠ 0 := by
  obtain ⟨k, hk⟩ : ∃ k, k = 1074 := ⟨1074, rfl⟩
  rw [digits_ofSteps hk]
  exact Nat.mul_ne_zero hne (Nat.ne_of_gt (Nat.pow_pos (by decide)))

theorem ofSteps_inRange (hx : Exact.ofFloat x = .finite false steps) (hne : steps ≠ 0) :
    (ofSteps steps).InRange := by
  obtain ⟨n, hn, hlt⟩ := exists_pow_gt hx
  have hexponent : ((ofSteps steps).exponent + 1074).toNat = 0 := rfl
  refine ⟨digits_ofSteps_ne hne, Int.le_refl _, n, hn, ?_⟩
  rw [hexponent, Nat.pow_zero, Nat.mul_one]
  omega

theorem toFloat_ofSteps (hx : Exact.ofFloat x = .finite false steps) (hne : steps ≠ 0) :
    (ofSteps steps).toFloat false = x := by
  obtain ⟨k, hk⟩ : ∃ k, k = 1074 := ⟨1074, rfl⟩
  have hexponent : (ofSteps steps).exponent = -(k : Int) := by rw [hk]; rfl
  have hwhole : (-(k : Int)).toNat = 0 := by omega
  have hplaces : (-(-(k : Int))).toNat = k := by omega
  have hvalue : steps * 5 ^ k * 1 * 2 ^ k = 10 ^ k * steps := by
    rw [show (10 : Nat) = 5 * 2 from rfl, Nat.mul_pow]
    ring
  rw [toFloat_eq (ofSteps_inRange hx hne), hexponent, hwhole, hplaces, digits_ofSteps hk,
    Exact.stepsInOne_eq hk, Nat.pow_zero, hvalue]
  have hscale := Exact.nearest_scale false (k := 10 ^ k) (Nat.pow_pos (by decide)) steps 1
  rw [Nat.mul_one] at hscale
  exact hscale.trans (Exact.nearest_of_ofFloat hx)

theorem pow_le_of_lt_digitCount {n k : Nat} (hn : n ≠ 0) (h : k < digitCount n) : 10 ^ k ≤ n := by
  rcases Nat.eq_zero_or_pos k with rfl | hk
  · exact Nat.pos_of_ne_zero hn
  · apply Nat.le_of_not_lt
    intro hlt
    exact Nat.not_le_of_lt h ((Nat.length_toDigits_le_iff (by decide) hk).2 hlt)

theorem neighbours_inRange (hx : Exact.ofFloat x = .finite false steps) (hne : steps ≠ 0)
    {dropped : Nat} (hd : dropped < digitCount (ofSteps steps).digits)
    (hr : readsBack steps d = true)
    (h : d = (neighbours (ofSteps steps) dropped).1 ∨ d = (neighbours (ofSteps steps) dropped).2) :
    d.InRange := by
  obtain ⟨n, hn, hlt⟩ := exists_pow_gt hx
  have hdigits := digits_ne_of_readsBack hne hr
  have hunit := pow_le_of_lt_digitCount (digits_ofSteps_ne hne) hd
  have hbelow : (ofSteps steps).digits / 10 ^ dropped * 10 ^ dropped ≤ (ofSteps steps).digits :=
    Nat.div_mul_le_self _ _
  have hexponent : (-1074 + (dropped : Int) + 1074).toNat = dropped := by omega
  have hlow : -1074 ≤ -1074 + (dropped : Int) := by omega
  rcases h with rfl | rfl
  · refine ⟨hdigits, hlow, n, hn, ?_⟩
    change (ofSteps steps).digits / 10 ^ dropped * 10 ^ (-1074 + (dropped : Int) + 1074).toNat < _
    rw [hexponent]
    omega
  · refine ⟨hdigits, hlow, n, hn, ?_⟩
    change ((ofSteps steps).digits / 10 ^ dropped + 1) *
      10 ^ (-1074 + (dropped : Int) + 1074).toNat < _
    rw [hexponent, Nat.succ_mul]
    omega

theorem shortest_spec (tie : Tie) (hx : Exact.ofFloat x = .finite false steps) (hne : steps ≠ 0) :
    (shortest tie steps).InRange ∧ (shortest tie steps).toFloat false = x := by
  have hstrip : ∀ d : Decimal, d.InRange → d.toFloat false = x →
      (stripZeros d.digits d.exponent).InRange ∧
        (stripZeros d.digits d.exponent).toFloat false = x := by
    intro d hd hback
    obtain ⟨hr, hf⟩ := stripZeros_spec d.digits d.exponent hd false
    exact ⟨hr, hf.trans hback⟩
  simp only [shortest]
  cases hfound : (List.range 17).findSome? fun n =>
      if n + 1 < digitCount (ofSteps steps).digits then
        neighbourReadingBack tie steps (ofSteps steps)
          (digitCount (ofSteps steps).digits - (n + 1))
      else none with
  | none => exact hstrip _ (ofSteps_inRange hx hne) (toFloat_ofSteps hx hne)
  | some d =>
    obtain ⟨n, _, hn⟩ := List.exists_of_findSome?_eq_some hfound
    split at hn
    · next hlt =>
      obtain ⟨hr, hd⟩ := neighbourReadingBack_some hn
      exact hstrip d (neighbours_inRange hx hne (by omega) hr hd) (readsBack_toFloat hx hr)
    · cases hn

end Decimal

end EventCuts
