import EventCuts.Json.Number
import EventCuts.Number.Format
import EventCuts.Proofs.Decimals
import EventCuts.Proofs.Numerals

/-!
# Texts of floats

The text of a finite float is digits, perhaps a point among them and an exponent behind them, in
every format. It is one literal, and the literal is read as that magnitude.
-/

namespace EventCuts

open Literal (isDigit isSign isDecimalMark Run Pointed Scaled Signed)

structure Spells (text : List Char) (x : Float) : Prop where
  digit : ∃ c ds, text = c :: ds ∧ isDigit c = true
  literal : Literal.IsLiteral text
  value : Reading.chars? text = some x

namespace Reading

theorem natValue_append (ds es : List Char) :
    natValue (ds ++ es) = es.foldl (fun value c => value * 10 + digitValue c) (natValue ds) :=
  List.foldl_append

theorem natValue_zeros_append (k : Nat) (ds : List Char) :
    natValue (FloatFormat.zeros k ++ ds) = natValue ds := by
  induction k with
  | zero => rfl
  | succ k ih => exact ih

theorem natValue_append_zeros (ds : List Char) (k : Nat) :
    natValue (ds ++ FloatFormat.zeros k) = natValue ds * 10 ^ k := by
  rw [natValue_append]
  generalize natValue ds = value
  induction k generalizing value with
  | zero => exact (Nat.mul_one value).symm
  | succ k ih =>
    rw [FloatFormat.zeros, List.replicate_succ, List.foldl_cons, ← FloatFormat.zeros, ih]
    have hzero : digitValue '0' = 0 := by decide
    rw [hzero, Nat.add_zero, Nat.pow_succ', Nat.mul_assoc]

theorem natValue_toDigits (n : Nat) : natValue (Nat.toDigits 10 n) = n := by
  rw [natValue_eq (run_toDigits n), Nat.ofDigitChars_ten_toDigits]

end Reading

namespace JsonNumber

theorem isWhole_of_head {c : Char} {ds : List Char} (hc : c ≠ '0') (h : Run isDigit (c :: ds)) :
    isWhole (c :: ds) = true := by
  have hall : (c :: ds).all isDigit = true := List.all_eq_true.2 h
  unfold isWhole
  split
  · next heq => cases heq
  · rfl
  · next heq =>
    obtain ⟨rfl, rfl⟩ := List.cons.inj heq
    rw [hall, Bool.and_true, bne_iff_ne]
    exact hc

end JsonNumber

theorem run_zeros (k : Nat) : Run isDigit (FloatFormat.zeros k) := by
  intro c hc
  rw [(List.mem_replicate.1 hc).2]
  decide

theorem toDigits_head {n : Nat} (h : n ≠ 0) :
    ∃ c ds, Nat.toDigits 10 n = c :: ds ∧ c ≠ '0' := by
  induction n using Nat.strongRecOn with
  | _ n ih =>
    by_cases hn : n < 10
    · refine ⟨n.digitChar, [], Nat.toDigits_of_lt_base hn, ?_⟩
      interval_cases n <;> first | exact absurd rfl h | decide
    · obtain ⟨c, ds, hds, hc⟩ := ih (n / 10) (by omega) (by omega)
      refine ⟨c, ds ++ [(n % 10).digitChar], ?_, hc⟩
      rw [Nat.toDigits_of_base_le (by decide) (by omega), hds, List.cons_append]

/-- The digits and the exponent that a text is laid out of, without a needless zero in front or
a point that nothing follows, and the float that they are nearest to. -/
structure Laid (text whole fraction : List Char) (n : Int) (x : Float) : Prop where
  parts : Literal.Parts isDigit isDecimalMark text whole fraction n
  leading : JsonNumber.isWhole whole = true
  pointless : fraction = [] → '.' ∉ text
  value : Decimal.toFloat false ⟨Reading.natValue (whole ++ fraction), n - fraction.length⟩ = x

theorem not_point_of_digit {c : Char} (h : isDigit c = true) : c ≠ '.' := by
  rintro rfl
  cases h

section Layouts

variable {c : Char} {text whole fraction ds : List Char} {x : Float}

theorem laid_of_pointed (h : Pointed whole fraction text) (hd : Run isDigit (whole ++ fraction))
    (hw : JsonNumber.isWhole whole = true) (hpoint : fraction = [] → '.' ∉ text)
    (hx : Decimal.toFloat false
      ⟨Reading.natValue (whole ++ fraction), -(fraction.length : Int)⟩ = x) :
    Laid text whole fraction 0 x := by
  have hany : whole ++ fraction ≠ [] := by
    refine List.append_ne_nil_of_left_ne_nil ?_ _
    rintro rfl
    cases hw
  refine ⟨h.parts hd hany, hw, hpoint, ?_⟩
  rw [Int.zero_sub]
  exact hx

theorem laid_in_front (h : Run isDigit ds) (hne : ds ≠ []) (k : Nat) :
    Laid ('0' :: '.' :: (FloatFormat.zeros k ++ ds)) ['0'] (FloatFormat.zeros k ++ ds) 0
      (Decimal.toFloat false ⟨Reading.natValue ds, -((k + ds.length : Nat) : Int)⟩) := by
  have hdigits : Reading.natValue (['0'] ++ (FloatFormat.zeros k ++ ds)) = Reading.natValue ds :=
    Reading.natValue_zeros_append (k + 1) ds
  refine laid_of_pointed (.point _) ?_ rfl ?_ ?_
  · exact List.forall_mem_append.2
      ⟨List.forall_mem_singleton.2 rfl, List.forall_mem_append.2 ⟨run_zeros k, h⟩⟩
  · exact fun hempty => absurd (List.append_eq_nil_iff.1 hempty).2 hne
  · rw [hdigits, List.length_append, FloatFormat.zeros, List.length_replicate]

theorem laid_among (h : Run isDigit (c :: ds)) (hc : c ≠ '0') {n : Nat} (hn : n < ds.length) :
    Laid ((c :: ds).take (n + 1) ++ '.' :: (c :: ds).drop (n + 1)) (c :: ds.take n) (ds.drop n) 0
      (Decimal.toFloat false
        ⟨Reading.natValue (c :: ds), -((ds.length - n : Nat) : Int)⟩) := by
  have hall : c :: ds.take n ++ ds.drop n = c :: ds := by
    rw [List.cons_append, List.take_append_drop]
  refine laid_of_pointed (.point _) ?_ ?_ ?_ ?_
  · rw [hall]
    exact h
  · exact JsonNumber.isWhole_of_head hc fun d hd => h d (hall ▸ List.mem_append_left _ hd)
  · intro hempty
    have hlength := List.drop_eq_nil_iff.1 hempty
    omega
  · rw [hall, List.length_drop]

theorem laid_behind (h : Run isDigit (c :: ds)) (hc : c ≠ '0') (point : Bool) {n : Nat}
    (hrange : Decimal.InRange ⟨Reading.natValue (c :: ds), n⟩) :
    Laid (c :: ds ++ FloatFormat.zeros n ++ (if point then ['.', '0'] else []))
      (c :: ds ++ FloatFormat.zeros n) (if point then ['0'] else []) 0
      (Decimal.toFloat false ⟨Reading.natValue (c :: ds), n⟩) := by
  have hall : Run isDigit (c :: ds ++ FloatFormat.zeros n) :=
    List.forall_mem_append.2 ⟨h, run_zeros n⟩
  have hleading : JsonNumber.isWhole (c :: ds ++ FloatFormat.zeros n) = true :=
    JsonNumber.isWhole_of_head hc hall
  cases point with
  | false =>
    simp only [Bool.false_eq_true, if_false, List.append_nil]
    have hexpand := Decimal.toFloat_expand false n 0 (by rwa [Int.zero_add]) (by decide)
    rw [Int.zero_add] at hexpand
    refine laid_of_pointed .none ?_ hleading ?_ ?_
    · rwa [List.append_nil]
    · exact fun _ hmem => not_point_of_digit (hall _ hmem) rfl
    · rw [List.append_nil, Reading.natValue_append_zeros]
      exact hexpand.2
  | true =>
    have hexponent : (-1 : Int) + (n + 1 : Nat) = n := by omega
    have hzeros : FloatFormat.zeros n ++ ['0'] = FloatFormat.zeros (n + 1) :=
      List.replicate_succ'.symm
    have hexpand := Decimal.toFloat_expand false (n + 1) (-1) (by rwa [hexponent]) (by decide)
    rw [hexponent] at hexpand
    simp only [if_true]
    refine laid_of_pointed (.point ['0']) ?_ hleading nofun ?_
    · exact List.forall_mem_append.2 ⟨hall, List.forall_mem_singleton.2 rfl⟩
    · rw [List.append_assoc, hzeros, Reading.natValue_append_zeros]
      exact hexpand.2

theorem laid_zero (f : FloatFormat) (hx : Exact.ofFloat x = .finite false 0) :
    ∃ whole fraction n, Laid (f.layPositional ['0'] 1) whole fraction n x := by
  refine ⟨['0'], if f.wholePoint then ['0'] else [], 0, ?_⟩
  unfold FloatFormat.layPositional
  cases f.wholePoint with
  | false =>
    refine laid_of_pointed .none (List.forall_mem_singleton.2 rfl) rfl (fun _ => by decide)
      (Exact.ofFloat_injective ?_ hx)
    decide +kernel
  | true =>
    refine laid_of_pointed (.point ['0']) ?_ rfl nofun (Exact.ofFloat_injective ?_ hx)
    · exact List.forall_mem_cons.2 ⟨rfl, List.forall_mem_singleton.2 rfl⟩
    · decide +kernel

theorem laid_layPositional (f : FloatFormat) (h : Run isDigit (c :: ds)) (hc : c ≠ '0')
    {exponent : Int} (hrange : Decimal.InRange ⟨Reading.natValue (c :: ds), exponent⟩) :
    ∃ whole fraction n, Laid (f.layPositional (c :: ds) ((c :: ds).length + exponent))
      whole fraction n (Decimal.toFloat false ⟨Reading.natValue (c :: ds), exponent⟩) := by
  simp only [FloatFormat.layPositional]
  split
  · next hfront =>
    have hplaces : exponent =
        -(((-((c :: ds).length + exponent)).toNat + (c :: ds).length : Nat) : Int) := by
      omega
    have hlaid := laid_in_front h (List.cons_ne_nil c ds) (-((c :: ds).length + exponent)).toNat
    rw [← hplaces] at hlaid
    exact ⟨_, _, _, hlaid⟩
  · split
    · next hfront hwithin =>
      obtain ⟨n, hn⟩ : ∃ n, ((c :: ds).length + exponent).toNat = n + 1 :=
        Nat.exists_eq_add_one.2 (by omega)
      rw [hn] at hwithin ⊢
      have hplaces : exponent = -((ds.length - n : Nat) : Int) := by
        simp only [List.length_cons] at hn hwithin
        omega
      have hlaid := laid_among h hc (Nat.lt_of_succ_lt_succ hwithin)
      rw [← hplaces] at hlaid
      exact ⟨_, _, _, hlaid⟩
    · next hfront hwithin =>
      obtain ⟨n, rfl⟩ : ∃ n : Nat, exponent = n := ⟨exponent.toNat, by omega⟩
      have hzeros : (((c :: ds).length : Int) + n).toNat - (c :: ds).length = n := by omega
      rw [hzeros]
      exact ⟨_, _, _, laid_behind h hc f.wholePoint hrange⟩

theorem scaled_layExponent (f : FloatFormat) (exponent : Int) :
    Scaled isDecimalMark (f.layExponent exponent) exponent := by
  have hne : Nat.toDigits 10 exponent.natAbs ≠ [] := Nat.toDigits_ne_nil
  have hrun := run_toDigits exponent.natAbs
  have hvalue := Nat.ofDigitChars_ten_toDigits (n := exponent.natAbs)
  refine .mark rfl ?_
  split
  · next hneg =>
    have hsigned := Signed.minus hne hrun
    rwa [hvalue, Int.ofNat_natAbs_of_nonpos (Int.le_of_lt hneg), Int.neg_neg] at hsigned
  · next hneg =>
    have habs : (exponent.natAbs : Int) = exponent := Int.natAbs_of_nonneg (Int.not_lt.1 hneg)
    split
    · have hsigned := Signed.plus hne hrun
      rwa [hvalue, habs] at hsigned
    · have hsigned := Signed.plain hne hrun
      rwa [hvalue, habs] at hsigned

theorem chars_of_signed {n : Int} (h : Signed text n) :
    ∀ c ∈ text, isSign c = true ∨ isDigit c = true := by
  cases h with
  | plain _ hd => exact fun c hc => .inr (hd c hc)
  | plus _ hd => exact List.forall_mem_cons.2 ⟨.inl rfl, fun c hc => .inr (hd c hc)⟩
  | minus _ hd => exact List.forall_mem_cons.2 ⟨.inl rfl, fun c hc => .inr (hd c hc)⟩

theorem chars_of_scaled {n : Int} (h : Scaled isDecimalMark text n) :
    ∀ c ∈ text, isDecimalMark c = true ∨ isSign c = true ∨ isDigit c = true := by
  cases h with
  | none => exact List.forall_mem_nil _
  | mark hc h =>
    exact List.forall_mem_cons.2 ⟨.inl hc, fun c hmem => .inr (chars_of_signed h c hmem)⟩

theorem laid_layScientific (f : FloatFormat) (h : Run isDigit (c :: ds)) (hc : c ≠ '0')
    (exponent : Int) :
    ∃ whole fraction n, Laid (f.layScientific (c :: ds) ((c :: ds).length + exponent - 1))
      whole fraction n (Decimal.toFloat false ⟨Reading.natValue (c :: ds), exponent⟩) := by
  have hscaled := scaled_layExponent f ((c :: ds).length + exponent - 1)
  have hplaces : (((c :: ds).length : Nat) : Int) + exponent - 1 - ds.length = exponent := by
    simp only [List.length_cons]
    omega
  have hleading : JsonNumber.isWhole [c] = true :=
    JsonNumber.isWhole_of_head hc (List.forall_mem_singleton.2 (h c List.mem_cons_self))
  refine ⟨[c], ds, (c :: ds).length + exponent - 1, ⟨h, List.cons_ne_nil c ds, ?_⟩, hleading,
    ?_, ?_⟩
  · cases ds with
    | nil => exact ⟨[c], _, .none, hscaled, rfl⟩
    | cons d ds => exact ⟨c :: '.' :: d :: ds, _, .point (d :: ds), hscaled, rfl⟩
  · rintro rfl hmem
    rcases List.mem_cons.1 hmem with hpoint | hmem
    · exact not_point_of_digit (h c List.mem_cons_self) hpoint.symm
    · rcases chars_of_scaled hscaled _ hmem with hmark | hsign | hdigit
      · exact absurd hmark (by decide)
      · exact absurd hsign (by decide)
      · exact absurd hdigit (by decide)
  · rw [hplaces]
    rfl

end Layouts

theorem laid_layMagnitude (f : FloatFormat) {x : Float} {steps : Nat}
    (hx : Exact.ofFloat x = .finite false steps) :
    ∃ whole fraction n, Laid (f.layMagnitude steps) whole fraction n x := by
  unfold FloatFormat.layMagnitude
  split
  · next hz =>
    subst hz
    exact laid_zero f hx
  · next hne =>
    obtain ⟨hrange, hback⟩ := Decimal.shortest_spec f.tie hx hne
    obtain ⟨d, hd⟩ : ∃ d, d = Decimal.shortest f.tie steps := ⟨_, rfl⟩
    rw [← hd] at hrange hback ⊢
    obtain ⟨digits, exponent⟩ := d
    obtain ⟨c, ds, hds, hc⟩ := toDigits_head hrange.digits_ne
    have hrun : Run isDigit (c :: ds) := hds ▸ run_toDigits digits
    have hvalue : Reading.natValue (c :: ds) = digits := hds ▸ Reading.natValue_toDigits digits
    subst hvalue
    simp only [FloatFormat.layOut, hds, ← hback]
    split
    · exact laid_layPositional f hrun hc hrange
    · exact laid_layScientific f hrun hc exponent

namespace Laid

variable {text whole fraction : List Char} {n : Int} {x : Float}

theorem head (h : Laid text whole fraction n x) :
    ∃ c rest, text = c :: rest ∧ isDigit c = true := by
  have hwhole : whole ≠ [] := by
    rintro rfl
    cases h.leading
  obtain ⟨c, ds, rfl⟩ := List.exists_cons_of_ne_nil hwhole
  obtain ⟨mantissa, scale, hpoint, _, rfl⟩ := h.parts.spelled
  have hc : isDigit c = true := h.parts.digits c List.mem_cons_self
  cases hpoint with
  | none => exact ⟨c, _, rfl, hc⟩
  | point => exact ⟨c, _, rfl, hc⟩

theorem forall_char {P : Char → Prop} [DecidablePred P] (h : Laid text whole fraction n x)
    (hall : "0123456789.eE+-".toList.all (fun c => decide (P c)) = true) : ∀ c ∈ text, P c := by
  have hp : ∀ c ∈ "0123456789.eE+-".toList, P c :=
    fun c hc => of_decide_eq_true (List.all_eq_true.1 hall c hc)
  have hdigit {c : Char} (hc : isDigit c = true) : P c :=
    hp c (forall_digit (P := fun c => c ∈ "0123456789.eE+-".toList) (by decide) hc)
  obtain ⟨mantissa, scale, hpoint, hscale, rfl⟩ := h.parts.spelled
  refine List.forall_mem_append.2 ⟨fun c hc => ?_, fun c hc => ?_⟩
  · rcases h.parts.run_pointed hpoint c hc with hd | rfl
    · exact hdigit hd
    · exact hp '.' (by decide)
  · rcases chars_of_scaled hscale c hc with hmark | hsign | hd
    · simp only [isDecimalMark, Bool.or_eq_true, beq_iff_eq] at hmark
      rcases hmark with rfl | rfl
      · exact hp 'e' (by decide)
      · exact hp 'E' (by decide)
    · simp only [isSign, Bool.or_eq_true, beq_iff_eq] at hsign
      rcases hsign with rfl | rfl
      · exact hp '+' (by decide)
      · exact hp '-' (by decide)
    · exact hdigit hd

theorem spells (h : Laid text whole fraction n x) : Spells text x :=
  ⟨h.head, .inl h.parts.numeral, (Reading.chars?_decimal h.parts).trans (congrArg some h.value)⟩

end Laid

theorem Spells.readNumber_eq {text : List Char} {x : Float} (h : Spells text x) :
    readNumber (String.ofList text) = some x := by
  rw [readNumber, String.toList_ofList, h.value]

theorem render_laid (f : FloatFormat) {x : Float} (h : x.isFinite = true) :
    ∃ text whole fraction n,
      (Laid text whole fraction n x ∧ f.render x = String.ofList text) ∨
        (Laid text whole fraction n (-x) ∧ f.render x = String.ofList ('-' :: text)) := by
  obtain ⟨negative, steps, hx⟩ := Exact.ofFloat_of_isFinite h
  cases negative with
  | false =>
    obtain ⟨whole, fraction, n, hlaid⟩ := laid_layMagnitude f hx
    refine ⟨_, whole, fraction, n, .inl ⟨hlaid, ?_⟩⟩
    rw [FloatFormat.render, hx]
    rfl
  | true =>
    obtain ⟨whole, fraction, n, hlaid⟩ := laid_layMagnitude f (Exact.ofFloat_neg hx)
    refine ⟨_, whole, fraction, n, .inr ⟨hlaid, ?_⟩⟩
    rw [FloatFormat.render, hx]
    rfl

theorem render_plain {x : Float} (h : x.isFinite = true) :
    (∃ text, Spells text x ∧ FloatFormat.plain.render x = String.ofList text) ∨
      ∃ text, Spells text (-x) ∧ FloatFormat.plain.render x = String.ofList ('-' :: text) := by
  obtain ⟨text, whole, fraction, n, ⟨hlaid, hname⟩ | ⟨hlaid, hname⟩⟩ := render_laid .plain h
  · exact .inl ⟨text, hlaid.spells, hname⟩
  · exact .inr ⟨text, hlaid.spells, hname⟩

end EventCuts
