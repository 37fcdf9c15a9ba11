import Mathlib
import EventCuts.Number.Exact

/-!
# Floats and their counts of steps

A float is packed from what it is unpacked into. A finite one has a mantissa of at most 53
bits, of exactly so many above the least exponent, so that rounding its steps gives it back
and no two floats of one sign have the same steps. Its exact value is so many steps.
-/

namespace EventCuts.Exact

open Float.Model (Format UnpackedFloat)
open Float.Model.UnpackedFloat

section Packing

variable (s : Sign) (b : BitVec Format.binary64.numBits)

theorem packComponents_unpack :
    packComponents .binary64 (Sign.ofBitVec (unpackSign b)) (unpackExponent b)
      (unpackMantissa b) = b := by
  have hsign : (Sign.ofBitVec (unpackSign b)).toBitVec = unpackSign b := by
    have hbit : ∀ v : BitVec 1, (Sign.ofBitVec v).toBitVec = v := by decide
    exact hbit _
  apply BitVec.eq_of_getLsbD_eq
  intro i hi
  rw [packComponents, hsign]
  simp only [unpackSign, unpackExponent, unpackMantissa]
  grind

theorem toNat_implicit (v : BitVec 52) : (1#1 ++ v).toNat = 2 ^ 52 + v.toNat := by
  have hlt := v.isLt
  rw [BitVec.toNat_append, ← Nat.shiftLeft_add_eq_or_of_lt hlt, Nat.shiftLeft_eq]
  rfl

theorem bias_eq : ((Format.exponentBias .binary64 : Nat) : Int) = 1023 := rfl

theorem mantissaBits_eq : Format.mantissaBits .binary64 = 53 := rfl

theorem pack_normal (v : BitVec 52) (e : BitVec 11) (htop : e.toNat < 2047)
    (hm : 0 < (1#1 ++ v).toNat) :
    UnpackedFloat.pack .binary64 (.finite s (1#1 ++ v).toNat ((e.toNat : Int) - 1075) hm) =
      packComponents .binary64 s e v := by
  have hv := v.isLt
  have hbiased : ((e.toNat : Int) - 1075 + 1023 + (52 : Nat)).toNat = e.toNat := by omega
  have hlog : (1#1 ++ v).toNat.log2 = 52 := by
    rw [Nat.log2_eq_iff (Nat.ne_of_gt hm), toNat_implicit]
    omega
  have hmantissa : BitVec.ofNat 52 (1#1 ++ v).toNat = v := by
    apply BitVec.eq_of_toNat_eq
    rw [BitVec.toNat_ofNat, toNat_implicit]
    omega
  simp only [UnpackedFloat.pack, bias_eq, mantissaBits_eq, hbiased, hlog]
  rw [if_neg (by omega), if_pos trivial, hmantissa, BitVec.ofNat_toNat, BitVec.setWidth_eq]

theorem pack_subnormal (v : BitVec 52) (hm : 0 < v.toNat) :
    UnpackedFloat.pack .binary64 (.finite s v.toNat (-1074) hm) =
      packComponents .binary64 s 0 v := by
  have hlog : v.toNat.log2 < 52 := (Nat.log2_lt (Nat.ne_of_gt hm)).2 v.isLt
  rw [UnpackedFloat.pack]
  refine (if_neg (by decide)).trans ((if_neg ?_).trans ?_)
  · rw [mantissaBits_eq]
    omega
  · rw [BitVec.ofNat_toNat, BitVec.setWidth_eq]
    rfl

end Packing

theorem unpack_normal {b : BitVec Format.binary64.numBits} (htop : unpackExponent b ≠ -1#11)
    (hzero : unpackExponent b ≠ 0#11) :
    ∃ h : 0 < (1#1 ++ unpackMantissa b).toNat,
      unpack .binary64 b = .finite (Sign.ofBitVec (unpackSign b))
        (1#1 ++ unpackMantissa b).toNat (((unpackExponent b).toNat : Int) - 1075) h := by
  have hm : 0 < (1#1 ++ unpackMantissa b).toNat := by
    rw [toNat_implicit]
    omega
  refine ⟨hm, ?_⟩
  simp only [unpack]
  rw [if_neg htop, if_neg hzero]
  congr 1

theorem unpack_cases (b : BitVec Format.binary64.numBits) :
    (unpackExponent b = -1#11 ∧ unpackMantissa b = 0#52 ∧
        unpack .binary64 b = .infinity (Sign.ofBitVec (unpackSign b))) ∨
      (unpackExponent b = -1#11 ∧ unpackMantissa b ≠ 0#52 ∧ unpack .binary64 b = .notANumber) ∨
      (unpackExponent b = 0#11 ∧ unpackMantissa b = 0#52 ∧
        unpack .binary64 b = .zero (Sign.ofBitVec (unpackSign b))) ∨
      (unpackExponent b = 0#11 ∧ ∃ h : 0 < (unpackMantissa b).toNat,
        unpack .binary64 b =
          .finite (Sign.ofBitVec (unpackSign b)) (unpackMantissa b).toNat (-1074) h) ∨
      ((unpackExponent b).toNat < 2047 ∧ 0 < (unpackExponent b).toNat ∧
        ∃ h : 0 < (1#1 ++ unpackMantissa b).toNat,
          unpack .binary64 b = .finite (Sign.ofBitVec (unpackSign b))
            (1#1 ++ unpackMantissa b).toNat (((unpackExponent b).toNat : Int) - 1075) h) := by
  by_cases htop : unpackExponent b = -1#11
  · by_cases hm : unpackMantissa b = 0#52
    · exact .inl ⟨htop, hm, by simp [unpack, htop, hm]⟩
    · exact .inr (.inl ⟨htop, hm, by simp [unpack, htop, hm]⟩)
  · by_cases hzero : unpackExponent b = 0#11
    · by_cases hm : unpackMantissa b = 0#52
      · exact .inr (.inr (.inl ⟨hzero, hm, by simp [unpack, hzero, hm]⟩))
      · have hpos : 0 < (unpackMantissa b).toNat := by
          apply Nat.pos_of_ne_zero
          intro h
          exact hm (BitVec.eq_of_toNat_eq h)
        refine .inr (.inr (.inr (.inl ⟨hzero, hpos, ?_⟩)))
        simp only [unpack, hzero, bias_eq]
        rw [if_neg (by decide), if_pos trivial, dif_neg hm]
        rfl
    · have hlt : (unpackExponent b).toNat < 2048 := (unpackExponent b).isLt
      have hpos : (unpackExponent b).toNat ≠ 0 := fun h => hzero (BitVec.eq_of_toNat_eq h)
      have hne : (unpackExponent b).toNat ≠ 2047 := fun h => htop (BitVec.eq_of_toNat_eq h)
      exact .inr (.inr (.inr (.inr ⟨by omega, by omega, unpack_normal htop hzero⟩)))

theorem pack_unpack (x : Float.Model) : Float.Model.pack x.unpack = x := by
  obtain ⟨bits, hvalid⟩ := x
  have hpack : UnpackedFloat.pack .binary64 (unpack .binary64 bits.toBitVec) = bits.toBitVec := by
    have hparts := packComponents_unpack bits.toBitVec
    rcases unpack_cases bits.toBitVec with ⟨he, hm, hu⟩ | ⟨he, hm, hu⟩ | ⟨he, hm, hu⟩ |
      ⟨he, h, hu⟩ | ⟨htop, _, h, hu⟩
    · rw [hu, UnpackedFloat.pack]
      rw [he, hm] at hparts
      exact hparts
    · rw [hu, UnpackedFloat.pack]
      exact (hvalid.eq_packedNaN he hm).symm
    · rw [hu, UnpackedFloat.pack]
      rw [he, hm] at hparts
      exact hparts
    · rw [hu, pack_subnormal]
      rw [he] at hparts
      exact hparts
    · rw [hu, pack_normal _ _ _ htop]
      exact hparts
  simp only [Float.Model.pack, Float.Model.unpack, hpack]

theorem unpackSign_packComponents (s : Sign) (e : BitVec 11) (v : BitVec 52) :
    Sign.ofBitVec (unpackSign (packComponents .binary64 s e v)) = s := by
  have hbits : unpackSign (packComponents .binary64 s e v) = s.toBitVec := by
    apply BitVec.eq_of_getLsbD_eq
    intro i hi
    obtain rfl : i = 0 := by omega
    simp only [unpackSign, packComponents]
    grind
  rw [hbits]
  cases s <;> rfl

theorem unpack_pack (s : Sign) {m shift : Nat} (hlow : 2 ^ 52 ≤ m) (hm : m < 2 ^ 53)
    (hshift : shift ≤ 2045) (hpos : 0 < m) :
    unpack .binary64 (UnpackedFloat.pack .binary64 (.finite s m ((shift : Int) - 1074) hpos)) =
      .finite s m ((shift : Int) - 1074) hpos := by
  have hv : (1#1 ++ BitVec.ofNat 52 m).toNat = m := by
    rw [toNat_implicit, BitVec.toNat_ofNat]
    omega
  have he : (BitVec.ofNat 11 (shift + 1)).toNat = shift + 1 := by
    rw [BitVec.toNat_ofNat]
    omega
  have hexponent : ((shift + 1 : Nat) : Int) - 1075 = shift - 1074 := by omega
  have hpack := pack_normal s (BitVec.ofNat 52 m) (BitVec.ofNat 11 (shift + 1)) (by omega)
    (by omega)
  simp only [hv, he, hexponent] at hpack
  have htop : BitVec.ofNat 11 (shift + 1) ≠ -1#11 := by
    intro h
    have hmax : (-1#11).toNat = 2047 := rfl
    rw [← h] at hmax
    omega
  have hzero : BitVec.ofNat 11 (shift + 1) ≠ 0#11 := by
    intro h
    have hmin : (0#11).toNat = 0 := rfl
    rw [← h] at hmin
    omega
  have hstored : unpackExponent (packComponents .binary64 s (BitVec.ofNat 11 (shift + 1))
      (BitVec.ofNat 52 m)) = BitVec.ofNat 11 (shift + 1) := unpackExponent_packComponents
  obtain ⟨_, hunpack⟩ := unpack_normal (hstored.trans_ne htop) (hstored.trans_ne hzero)
  rw [hpack, hunpack]
  simp only [unpackSign_packComponents, unpackExponent_packComponents,
    unpackMantissa_packComponents, hv, he, hexponent]

/-- A literal exponent of this size would be evaluated. -/
theorem stepsInOne_eq {n : Nat} (h : n = 1074) : stepsInOne = 2 ^ n := by
  unfold stepsInOne
  rw [← h, Nat.pow_eq]

theorem stepsInOne_pos : 0 < stepsInOne := by
  obtain ⟨n, hn⟩ : ∃ n, n = 1074 := ⟨1074, rfl⟩
  rw [stepsInOne_eq hn]
  exact Nat.two_pow_pos n

theorem roundDiv_mul (m : Nat) {den : Nat} (h : 0 < den) : roundDiv (m * den) den = m := by
  simp only [roundDiv, Nat.mul_div_cancel m h, Nat.mul_mod_left, Nat.mul_zero, h, if_true]

theorem nearest_of_fits (negative : Bool) {m shift : Nat} (hm : m < 2 ^ 53)
    (hlow : 2 ^ 52 ≤ m ∨ shift = 0) :
    nearest negative (m * 2 ^ shift) 1 = packSteps negative m shift := by
  have hshift : (m * 2 ^ shift / 1).log2 - 52 = shift := by
    rw [Nat.div_one]
    rcases hlow with hlow | rfl
    · have hpos : 0 < 2 ^ shift := Nat.two_pow_pos shift
      have hne : m * 2 ^ shift ≠ 0 := Nat.ne_of_gt (Nat.mul_pos (by omega) hpos)
      have hlog : (m * 2 ^ shift).log2 = 52 + shift := by
        rw [Nat.log2_eq_iff hne]
        constructor
        · rw [Nat.pow_add]
          exact Nat.mul_le_mul_right _ hlow
        · rw [show 52 + shift + 1 = 53 + shift by omega, Nat.pow_add]
          exact Nat.mul_lt_mul_of_pos_right hm hpos
      omega
    · rcases Nat.eq_zero_or_pos m with rfl | hpos
      · rfl
      · have hlog := (Nat.log2_lt (Nat.ne_of_gt hpos)).2 hm
        rw [Nat.pow_zero, Nat.mul_one]
        omega
  simp only [nearest, hshift, Nat.pow_eq, Nat.one_mul,
    roundDiv_mul m (Nat.two_pow_pos shift), hm, if_true]

theorem pack_unpack_float (x : Float) : pack x.toModel.unpack = x :=
  congrArg Float.ofModel (pack_unpack x.toModel)

theorem sign_isNegative (s : Sign) : sign (isNegative s) = s := by
  cases s <;> rfl

theorem unpack_fits {b : BitVec Format.binary64.numBits} {s : Sign} {m : Nat} {e : Int}
    {h : 0 < m} (hu : unpack .binary64 b = .finite s m e h) :
    m < 2 ^ 53 ∧ ∃ shift : Nat, e = shift - 1074 ∧ shift ≤ 2045 ∧ (2 ^ 52 ≤ m ∨ shift = 0) := by
  have hlt : (unpackMantissa b).toNat < 2 ^ 52 := (unpackMantissa b).isLt
  rcases unpack_cases b with ⟨_, _, hb⟩ | ⟨_, _, hb⟩ | ⟨_, _, hb⟩ | ⟨_, _, hb⟩ |
    ⟨htop, hpos, _, hb⟩
  · cases hu.symm.trans hb
  · cases hu.symm.trans hb
  · cases hu.symm.trans hb
  · cases hu.symm.trans hb
    exact ⟨by omega, 0, by omega, by omega, .inr rfl⟩
  · have himplicit := toNat_implicit (unpackMantissa b)
    cases hu.symm.trans hb
    exact ⟨by omega, (unpackExponent b).toNat - 1, by omega, by omega, .inl (by omega)⟩

theorem packSteps_zero (negative : Bool) : packSteps negative 0 0 = pack (.zero (sign negative)) :=
  dif_neg (Nat.lt_irrefl 0)

theorem packSteps_pos (negative : Bool) {m : Nat} (h : 0 < m) (shift : Nat) :
    packSteps negative m shift = pack (.finite (sign negative) m ((shift : Int) - 1074) h) :=
  dif_pos h

theorem unpack_of_ofFloat {x : Float} {negative : Bool} {steps : Nat}
    (h : ofFloat x = .finite negative steps) :
    (x.toModel.unpack = .zero (sign negative) ∧ steps = 0) ∨
      ∃ (m shift : Nat) (hm : 0 < m),
        x.toModel.unpack = .finite (sign negative) m ((shift : Int) - 1074) hm ∧
          steps = m * 2 ^ shift ∧ m < 2 ^ 53 ∧ shift ≤ 2045 ∧ (2 ^ 52 ≤ m ∨ shift = 0) := by
  unfold ofFloat at h
  cases hu : x.toModel.unpack with
  | zero s =>
    rw [hu] at h
    cases h
    exact .inl ⟨congrArg _ (sign_isNegative s).symm, rfl⟩
  | finite s m e hm =>
    obtain ⟨hlt, shift, rfl, hle, hlow⟩ := unpack_fits hu
    have hshift : ((shift : Int) - 1074 + 1074).toNat = shift := by omega
    rw [hu] at h
    simp only [ofUnpacked, Exact.finite.injEq, hshift, Nat.pow_eq] at h
    obtain ⟨rfl, rfl⟩ := h
    rw [sign_isNegative]
    exact .inr ⟨m, shift, hm, rfl, rfl, hlt, hle, hlow⟩
  | _ =>
    rw [hu] at h
    cases h

theorem isFinite_of_ofFloat {x : Float} {negative : Bool} {steps : Nat}
    (h : ofFloat x = .finite negative steps) : x.isFinite = true := by
  rcases unpack_of_ofFloat h with ⟨hu, _⟩ | ⟨_, _, _, hu, _⟩
  · exact congrArg UnpackedFloat.isFinite hu
  · exact congrArg UnpackedFloat.isFinite hu

theorem nearest_of_ofFloat {x : Float} {negative : Bool} {steps : Nat}
    (h : ofFloat x = .finite negative steps) : nearest negative steps 1 = x := by
  have hpack := pack_unpack_float x
  rcases unpack_of_ofFloat h with ⟨hu, rfl⟩ | ⟨m, shift, hm, hu, rfl, hlt, _, hlow⟩
  · have hzero := @nearest_of_fits negative 0 0 (by decide) (.inr rfl)
    rw [Nat.zero_mul, packSteps_zero, ← hu] at hzero
    exact hzero.trans hpack
  · rw [nearest_of_fits _ hlt hlow, packSteps_pos _ hm, ← hu]
    exact hpack

theorem ofFloat_packSteps (negative : Bool) {m shift : Nat} (hlow : 2 ^ 52 ≤ m) (hm : m < 2 ^ 53)
    (hshift : shift ≤ 2045) :
    ofFloat (packSteps negative m shift) = .finite negative (m * 2 ^ shift) := by
  have hpos : 0 < m := by omega
  have hunpack := unpack_pack (sign negative) hlow hm hshift hpos
  have hexponent : ((shift : Int) - 1074 + 1074).toNat = shift := by omega
  have hsign : isNegative (sign negative) = negative := by cases negative <;> rfl
  rw [packSteps_pos negative hpos]
  refine (congrArg ofUnpacked hunpack).trans ?_
  simp only [ofUnpacked, hexponent, hsign, Nat.pow_eq]

theorem ofFloat_injective {x y : Float} {negative : Bool} {steps : Nat}
    (hx : ofFloat x = .finite negative steps) (hy : ofFloat y = .finite negative steps) : x = y :=
  (nearest_of_ofFloat hx).symm.trans (nearest_of_ofFloat hy)

theorem unpack_neg (b : BitVec Format.binary64.numBits) :
    unpack .binary64 (packComponents .binary64 (-Sign.ofBitVec (unpackSign b)) (unpackExponent b)
      (unpackMantissa b)) = (unpack .binary64 b).neg := by
  have hs := unpackSign_packComponents (-Sign.ofBitVec (unpackSign b)) (unpackExponent b)
    (unpackMantissa b)
  simp only [unpack, hs, unpackExponent_packComponents, unpackMantissa_packComponents]
  split
  · split <;> rfl
  · split
    · split <;> rfl
    · rfl

theorem pack_neg {b : BitVec Format.binary64.numBits} (h : (unpack .binary64 b).isFinite = true) :
    UnpackedFloat.pack .binary64 (unpack .binary64 b).neg =
      packComponents .binary64 (-Sign.ofBitVec (unpackSign b)) (unpackExponent b)
        (unpackMantissa b) := by
  rcases unpack_cases b with ⟨_, _, hu⟩ | ⟨_, _, hu⟩ | ⟨he, hm, hu⟩ | ⟨he, hpos, hu⟩ |
    ⟨htop, _, hpos, hu⟩
  · rw [hu] at h
    cases h
  · rw [hu] at h
    cases h
  · rw [hu, he, hm]
    rfl
  · rw [hu, he]
    exact pack_subnormal _ _ hpos
  · rw [hu]
    exact pack_normal _ _ _ htop hpos

theorem unpack_neg_float {x : Float} (h : x.isFinite = true) :
    (-x).toModel.unpack = x.toModel.unpack.neg := by
  have hneg : (-x).toModel = Float.Model.pack x.toModel.unpack.neg := rfl
  have hfinite : x.toModel.unpack.isFinite = true := h
  rw [hneg]
  generalize x.toModel = model at hfinite
  simp only [Float.Model.pack, Float.Model.unpack] at hfinite ⊢
  rw [pack_neg hfinite]
  exact unpack_neg _

theorem ofFloat_neg {x : Float} {negative : Bool} {steps : Nat}
    (h : ofFloat x = .finite negative steps) : ofFloat (-x) = .finite (!negative) steps := by
  have hsign : isNegative (-sign negative) = !negative := by cases negative <;> rfl
  have hfinite := isFinite_of_ofFloat h
  rcases unpack_of_ofFloat h with ⟨hu, rfl⟩ | ⟨m, shift, hm, hu, rfl, _, _, _⟩
  · rw [ofFloat, unpack_neg_float hfinite, hu]
    exact congrArg (Exact.finite · 0) hsign
  · have hshift : ((shift : Int) - 1074 + 1074).toNat = shift := by omega
    rw [ofFloat, unpack_neg_float hfinite, hu]
    simp only [UnpackedFloat.neg, ofUnpacked, hsign, hshift, Nat.pow_eq]

theorem ofFloat_of_isFinite {x : Float} (h : x.isFinite = true) :
    ∃ negative steps, ofFloat x = .finite negative steps := by
  have hfinite : x.toModel.unpack.isFinite = true := h
  unfold ofFloat
  cases hu : x.toModel.unpack with
  | notANumber =>
    rw [hu] at hfinite
    cases hfinite
  | infinity s =>
    rw [hu] at hfinite
    cases hfinite
  | zero s => exact ⟨_, _, rfl⟩
  | finite s m e hm => exact ⟨_, _, rfl⟩

theorem ofFloat_lt {x : Float} {negative : Bool} {steps : Nat}
    (h : ofFloat x = .finite negative steps) : ∃ n, n ≤ 2098 ∧ steps < 2 ^ n := by
  rcases unpack_of_ofFloat h with ⟨_, rfl⟩ | ⟨m, shift, _, _, rfl, hlt, hshift, _⟩
  · exact ⟨0, Nat.zero_le _, Nat.one_pos⟩
  · refine ⟨53 + shift, by omega, ?_⟩
    rw [Nat.pow_add]
    exact Nat.mul_lt_mul_of_pos_right hlt (Nat.two_pow_pos shift)

theorem neg_neg_of_isFinite {x : Float} (h : x.isFinite = true) : - -x = x := by
  obtain ⟨negative, steps, hx⟩ := ofFloat_of_isFinite h
  have htwice := ofFloat_neg (ofFloat_neg hx)
  rw [Bool.not_not] at htwice
  exact ofFloat_injective htwice hx

def value? (x : Float) : Option ℚ :=
  match x.toModel.unpack with
  | .zero _ => some 0
  | .finite s mantissa exponent _ => some ((s.apply mantissa : ℚ) * 2 ^ exponent)
  | _ => none

theorem apply_zero (s : Sign) : s.apply 0 = 0 := by
  cases s <;> rfl

theorem apply_mul (s : Sign) (m k : Int) : s.apply (m * k) = s.apply m * k := by
  cases s with
  | positive => rfl
  | negative => exact (Int.neg_mul m k).symm

theorem value?_of_ofFloat {x : Float} {negative : Bool} {steps : Nat}
    (h : ofFloat x = .finite negative steps) :
    value? x = some (((sign negative).apply steps : ℚ) / stepsInOne) := by
  rcases unpack_of_ofFloat h with ⟨hu, rfl⟩ | ⟨m, shift, hm, hu, rfl, _, _, _⟩
  · rw [value?, hu]
    simp only [Nat.cast_zero, apply_zero, Int.cast_zero, zero_div]
  · obtain ⟨n, hn⟩ : ∃ n : Nat, n = 1074 := ⟨1074, rfl⟩
    have hexponent : (shift : Int) - 1074 = shift - n := by omega
    rw [value?, hu]
    simp only [hexponent, stepsInOne_eq hn, Nat.cast_mul, apply_mul]
    push_cast
    rw [zpow_sub₀ two_ne_zero, zpow_natCast, zpow_natCast, ← mul_div_assoc]

theorem value?_of_positive {x : Float} {steps : Nat} (h : ofFloat x = .finite false steps) :
    value? x = some ((steps : ℚ) / stepsInOne) :=
  value?_of_ofFloat h

theorem value?_of_negative {x : Float} {steps : Nat} (h : ofFloat x = .finite true steps) :
    value? x = some (-((steps : ℚ) / stepsInOne)) := by
  have happly : (((sign true).apply steps : ℤ) : ℚ) = -(steps : ℚ) := Int.cast_neg _
  rw [value?_of_ofFloat h, happly, neg_div]

theorem value?_eq_none_iff (x : Float) :
    value? x = none ↔ ∀ negative steps, ofFloat x ≠ .finite negative steps := by
  unfold value? ofFloat
  cases x.toModel.unpack <;> simp [ofUnpacked]

end EventCuts.Exact
