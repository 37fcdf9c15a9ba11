import EventCuts.Number.Reading
import EventCuts.Proofs.Literals
import Mathlib.Data.List.TakeWhile

/-!
# How literals are read

A literal is taken apart into the digits in front of the point and behind it and an exponent,
whatever its form. Reading finds the same parts by its marks: a decimal literal is always
read, and a hexadecimal one when its exponent is not too large.
-/

namespace EventCuts

open Literal (isDigit isHexDigit isDecimalMark isBinaryMark Run)

section Digits

variable {c : Char} {ds : List Char}

theorem digit_cases (h : isDigit c = true) : c ∈ "0123456789".toList := by
  simp only [isDigit, Bool.and_eq_true, decide_eq_true_eq] at h
  have hlow : 48 ≤ c.toNat := h.1
  have hhigh : c.toNat ≤ 57 := h.2
  have hc := Char.ofNat_toNat c
  have hn : c.toNat = 48 ∨ c.toNat = 49 ∨ c.toNat = 50 ∨ c.toNat = 51 ∨ c.toNat = 52 ∨
      c.toNat = 53 ∨ c.toNat = 54 ∨ c.toNat = 55 ∨ c.toNat = 56 ∨ c.toNat = 57 := by omega
  rcases hn with hn | hn | hn | hn | hn | hn | hn | hn | hn | hn <;> rw [← hc, hn] <;> decide

theorem forall_digit {P : Char → Prop} [DecidablePred P]
    (h : "0123456789".toList.all (fun c => decide (P c)) = true) (hc : isDigit c = true) : P c :=
  of_decide_eq_true (List.all_eq_true.1 h c (digit_cases hc))

theorem natValue_eq (hd : Run isDigit ds) : Reading.natValue ds = Nat.ofDigitChars 10 ds 0 := by
  have hfold : ∀ ds, Run isDigit ds → ∀ value,
      ds.foldl (fun value c => value * 10 + Reading.digitValue c) value =
        Nat.ofDigitChars 10 ds value := by
    intro ds
    induction ds with
    | nil =>
      intro _ value
      rw [Nat.ofDigitChars_nil]
      rfl
    | cons c ds ih =>
      intro h value
      obtain ⟨hc, hds⟩ := List.forall_mem_cons.1 h
      rw [List.foldl_cons, Nat.ofDigitChars_cons, ih hds, Reading.digitValue, if_pos hc,
        Nat.mul_comm]
  exact hfold ds hd 0

end Digits

namespace Literal

variable {accepts isMark : Char → Bool} {text whole fraction : List Char} {n : Int}

inductive Signed : List Char → Int → Prop
  | plain {ds : List Char} (hne : ds ≠ []) (hd : Run isDigit ds) :
      Signed ds (Nat.ofDigitChars 10 ds 0)
  | plus {ds : List Char} (hne : ds ≠ []) (hd : Run isDigit ds) :
      Signed ('+' :: ds) (Nat.ofDigitChars 10 ds 0)
  | minus {ds : List Char} (hne : ds ≠ []) (hd : Run isDigit ds) :
      Signed ('-' :: ds) (-Nat.ofDigitChars 10 ds 0)

inductive Pointed (whole : List Char) : (fraction text : List Char) → Prop
  | none : Pointed whole [] whole
  | point (fraction : List Char) : Pointed whole fraction (whole ++ '.' :: fraction)

inductive Scaled (isMark : Char → Bool) : List Char → Int → Prop
  | none : Scaled isMark [] 0
  | mark {c : Char} {text : List Char} {n : Int} (hc : isMark c = true) (h : Signed text n) :
      Scaled isMark (c :: text) n

/-- The digits of a numeral in front of the point and behind it, and its exponent. -/
structure Parts (accepts isMark : Char → Bool) (text whole fraction : List Char) (exponent : Int) :
    Prop where
  digits : Run accepts (whole ++ fraction)
  nonempty : whole ++ fraction ≠ []
  spelled : ∃ mantissa scale, Pointed whole fraction mantissa ∧ Scaled isMark scale exponent ∧
    text = mantissa ++ scale

def HexParts (text whole fraction : List Char) (exponent : Int) : Prop :=
  ∃ mark digits, isHexMark mark = true ∧
    Parts isHexDigit isBinaryMark digits whole fraction exponent ∧ text = '0' :: mark :: digits

theorem Signed.exponent {mark : Char} (hmark : isMark mark = true) (h : Signed text n) :
    Exponent isMark (mark :: text) := by
  cases h with
  | plain hne hd => exact ⟨mark, [], text, hmark, Nat.zero_le 1, nofun, hne, hd, rfl⟩
  | @plus ds hne hd =>
    exact ⟨mark, ['+'], ds, hmark, Nat.le_refl 1, List.forall_mem_singleton.2 rfl, hne, hd, rfl⟩
  | @minus ds hne hd =>
    exact ⟨mark, ['-'], ds, hmark, Nat.le_refl 1, List.forall_mem_singleton.2 rfl, hne, hd, rfl⟩

theorem Parts.numeral (h : Parts accepts isMark text whole fraction n) :
    Numeral accepts isMark text := by
  obtain ⟨hd, hne, mantissa, scale, hpoint, hscale, rfl⟩ := h
  refine ⟨mantissa, scale, ?_, ?_, rfl⟩
  · cases hpoint with
    | none =>
      rw [List.append_nil] at hd hne
      exact .inl ⟨hne, hd⟩
    | point =>
      obtain ⟨hw, hf⟩ := List.forall_mem_append.1 hd
      exact .inr ⟨whole, fraction, hw, hf, hne, rfl⟩
  · cases hscale with
    | none => exact .inl rfl
    | mark hc h => exact .inr (h.exponent hc)

theorem Pointed.parts (h : Pointed whole fraction text) (hd : Run accepts (whole ++ fraction))
    (hne : whole ++ fraction ≠ []) : Parts accepts isMark text whole fraction 0 :=
  ⟨hd, hne, text, [], h, .none, (List.append_nil text).symm⟩

theorem Exponent.scaled (h : Exponent isMark text) : ∃ n, Scaled isMark text n := by
  obtain ⟨mark, sign, digits, hmark, hlength, hs, hne, hd, rfl⟩ := h
  rcases sign with _ | ⟨s, _ | ⟨_, _⟩⟩
  · exact ⟨_, .mark hmark (.plain hne hd)⟩
  · have hsign := hs s List.mem_cons_self
    simp only [isSign, Bool.or_eq_true, beq_iff_eq] at hsign
    rcases hsign with rfl | rfl
    · exact ⟨_, .mark hmark (.plus hne hd)⟩
    · exact ⟨_, .mark hmark (.minus hne hd)⟩
  · simp only [List.length_cons] at hlength
    omega

theorem Mantissa.pointed (h : Mantissa accepts text) :
    ∃ whole fraction, Run accepts (whole ++ fraction) ∧ whole ++ fraction ≠ [] ∧
      Pointed whole fraction text := by
  rcases h with ⟨hne, hrun⟩ | ⟨whole, fraction, hw, hf, hne, rfl⟩
  · refine ⟨text, [], ?_, ?_, .none⟩
    · rwa [List.append_nil]
    · rwa [List.append_nil]
  · exact ⟨whole, fraction, List.forall_mem_append.2 ⟨hw, hf⟩, hne, .point fraction⟩

theorem Numeral.parts (h : Numeral accepts isMark text) :
    ∃ whole fraction n, Parts accepts isMark text whole fraction n := by
  obtain ⟨mantissa, exponent, hm, he, rfl⟩ := h
  obtain ⟨whole, fraction, hd, hne, hpoint⟩ := hm.pointed
  rcases he with rfl | he
  · rw [List.append_nil]
    exact ⟨whole, fraction, 0, hpoint.parts hd hne⟩
  · obtain ⟨n, hn⟩ := he.scaled
    exact ⟨whole, fraction, n, hd, hne, mantissa, exponent, hpoint, hn, rfl⟩

theorem Hexadecimal.parts (h : Hexadecimal text) :
    ∃ whole fraction n, HexParts text whole fraction n := by
  obtain ⟨mark, digits, hmark, hd, rfl⟩ := h
  obtain ⟨whole, fraction, n, hparts⟩ := hd.parts
  exact ⟨whole, fraction, n, mark, digits, hmark, hparts, rfl⟩

theorem Parts.run_pointed (h : Parts accepts isMark text whole fraction n) {mantissa : List Char}
    (hpoint : Pointed whole fraction mantissa) :
    ∀ c ∈ mantissa, accepts c = true ∨ c = '.' := by
  intro c hc
  cases hpoint with
  | none => exact .inl (h.digits c (List.mem_append_left _ hc))
  | point =>
    rcases List.mem_append.1 hc with hc | hc
    · exact .inl (h.digits c (List.mem_append_left _ hc))
    · rcases List.mem_cons.1 hc with rfl | hc
      · exact .inr rfl
      · exact .inl (h.digits c (List.mem_append_right _ hc))

theorem Parts.head (h : Parts accepts isMark text whole fraction n) :
    ∃ c rest, text = c :: rest ∧ (accepts c = true ∨ c = '.') := by
  obtain ⟨mantissa, scale, hpoint, _, rfl⟩ := h.spelled
  have hne : mantissa ≠ [] := by
    cases hpoint with
    | none =>
      have hne := h.nonempty
      rwa [List.append_nil] at hne
    | point => exact List.append_ne_nil_of_right_ne_nil _ (List.cons_ne_nil _ _)
  obtain ⟨c, rest, rfl⟩ := List.exists_cons_of_ne_nil hne
  exact ⟨c, rest ++ scale, rfl, h.run_pointed hpoint c List.mem_cons_self⟩

end Literal

namespace Reading

open Literal (Signed Pointed Scaled Parts HexParts)

variable {accepts isMark : Char → Bool} {front back text whole fraction : List Char} {n : Int}

theorem splitAtMark_none (h : ∀ c ∈ text, isMark c = false) :
    splitAtMark isMark text = (text, none) := by
  have hdrop : text.dropWhile (fun c => !isMark c) = [] := by
    rw [List.dropWhile_eq_nil_iff]
    intro c hc
    rw [h c hc]
    rfl
  simp only [splitAtMark, hdrop]

theorem splitAtMark_append {mark : Char} (hfront : ∀ c ∈ front, isMark c = false)
    (hmark : isMark mark = true) :
    splitAtMark isMark (front ++ mark :: back) = (front, some back) := by
  have hpass : ∀ c ∈ front, (!isMark c) = true := by
    intro c hc
    rw [hfront c hc]
    rfl
  have hstop : (!isMark mark) = false := by
    rw [hmark]
    rfl
  simp only [splitAtMark, List.dropWhile_append_of_pos hpass, List.takeWhile_append_of_pos hpass,
    List.dropWhile_cons, List.takeWhile_cons, hstop, Bool.false_eq_true, if_false, List.append_nil]

theorem digits?_run (hne : text ≠ []) (hd : Run isDigit text) :
    digits? text = some (natValue text) :=
  if_pos ⟨hne, List.all_eq_true.2 hd⟩

theorem int?_signed (h : Signed text n) : int? text = some n := by
  cases h with
  | plain hne hd =>
    have hplus : ∀ rest, text = '+' :: rest → False := by
      rintro rest rfl
      exact absurd (hd '+' List.mem_cons_self) (by decide)
    have hminus : ∀ rest, text = '-' :: rest → False := by
      rintro rest rfl
      exact absurd (hd '-' List.mem_cons_self) (by decide)
    rw [int?.eq_3 _ hplus hminus, digits?_run hne hd, natValue_eq hd]
    rfl
  | plus hne hd =>
    rw [int?, digits?_run hne hd, natValue_eq hd]
    rfl
  | minus hne hd =>
    rw [int?, digits?_run hne hd, natValue_eq hd]
    rfl

theorem splitAtMark_scale {scale : List Char} (hfront : ∀ c ∈ front, isMark c = false)
    (h : Scaled isMark scale n) :
    ∃ exponent, splitAtMark isMark (front ++ scale) = (front, exponent) ∧
      exponent? exponent = some n := by
  cases h with
  | none =>
    rw [List.append_nil]
    exact ⟨none, splitAtMark_none hfront, rfl⟩
  | mark hc h => exact ⟨_, splitAtMark_append hfront hc, int?_signed h⟩

theorem splitAtMark_point (hdot : accepts '.' = false) (hd : Run accepts (whole ++ fraction))
    (h : Pointed whole fraction text) :
    ∃ point, splitAtMark (· == '.') text = (whole, point) ∧ point.getD [] = fraction ∧
      (point = none ∨ '.' ∈ text) := by
  have hwhole : ∀ c ∈ whole, (c == '.') = false := by
    intro c hc
    rw [beq_eq_false_iff_ne]
    rintro rfl
    rw [hd '.' (List.mem_append_left _ hc)] at hdot
    cases hdot
  cases h with
  | none => exact ⟨none, splitAtMark_none hwhole, rfl, .inl rfl⟩
  | point =>
    exact ⟨some fraction, splitAtMark_append hwhole rfl, rfl,
      .inr (List.mem_append_right _ List.mem_cons_self)⟩

theorem splitAtMark_parts (hdot : accepts '.' = false)
    (hmark : ∀ c, isMark c = true → accepts c = false ∧ c ≠ '.')
    (h : Parts accepts isMark text whole fraction n) :
    ∃ mantissa exponent point, splitAtMark isMark text = (mantissa, exponent) ∧
      exponent? exponent = some n ∧ splitAtMark (· == '.') mantissa = (whole, point) ∧
      point.getD [] = fraction ∧ (point = none ∨ '.' ∈ text) := by
  obtain ⟨mantissa, scale, hpoint, hscale, rfl⟩ := h.spelled
  have hfront : ∀ c ∈ mantissa, isMark c = false := by
    intro c hc
    rw [← Bool.not_eq_true]
    intro hm
    obtain ⟨hnot, hne⟩ := hmark c hm
    rcases h.run_pointed hpoint c hc with ha | rfl
    · rw [hnot] at ha
      cases ha
    · exact hne rfl
  obtain ⟨exponent, hsplit, hvalue⟩ := splitAtMark_scale hfront hscale
  obtain ⟨point, hmantissa, hfraction, hdotted⟩ := splitAtMark_point hdot h.digits hpoint
  exact ⟨mantissa, exponent, point, hsplit, hvalue, hmantissa, hfraction,
    hdotted.imp_right (List.mem_append_left scale)⟩

theorem decimal?_parts (h : Parts isDigit isDecimalMark text whole fraction n) :
    decimal? text = some ⟨natValue (whole ++ fraction), n - fraction.length⟩ := by
  obtain ⟨mantissa, exponent, point, hsplit, hvalue, hmantissa, hfraction, _⟩ :=
    splitAtMark_parts (by decide) @Literal.decimalMark_stops h
  simp only [decimal?, hsplit, hmantissa, hfraction, digits?_run h.nonempty h.digits, hvalue]

theorem hexParts?_parts (h : Parts isHexDigit isBinaryMark text whole fraction n) :
    hexParts? text =
      if fitsBinaryExponent n then some (whole.map digitValue, fraction.map digitValue, n)
      else none := by
  obtain ⟨mantissa, exponent, point, hsplit, hvalue, hmantissa, hfraction, _⟩ :=
    splitAtMark_parts (by decide) @Literal.binaryMark_stops h
  have hall : (whole ++ fraction).all isHexDigit = true := List.all_eq_true.2 h.digits
  simp only [hexParts?, hsplit, hmantissa, hfraction, hvalue, hall, Bool.and_true]

theorem hex?_parts {α : Type} (a : Arithmetic α)
    (h : Parts isHexDigit isBinaryMark text whole fraction n) :
    hex? a text =
      if fitsBinaryExponent n then
        some (a.hexValue (whole.map digitValue) (fraction.map digitValue) n)
      else none := by
  rw [hex?, hexParts?_parts h]
  split
  · rfl
  · rfl

theorem unsigned?_of_head {c : Char} (hc : isDigit c = true ∨ c = '.') (negative : Bool)
    (rest : List Char) :
    unsigned? negative (c :: rest) = (decimal? (c :: rest)).map (Decimal.toFloat negative) := by
  have hlower : (isDigit c.toLower || c.toLower == '.') = true := by
    rcases hc with hc | rfl
    · exact forall_digit (P := fun c => (isDigit c.toLower || c.toLower == '.') = true)
        (by decide) hc
    · decide
  have hname : ∀ name : String,
      name.toList.head?.all (fun c => !(isDigit c || c == '.')) = true →
        String.ofList ((c :: rest).map Char.toLower) ≠ name := by
    rintro _ hname rfl
    rw [String.toList_ofList, List.map_cons, List.head?_cons, Option.all_some, hlower] at hname
    cases hname
  simp only [unsigned?]
  rw [if_neg, if_neg]
  · exact hname "nan" (by decide)
  · rintro (h | h)
    · exact hname "inf" (by decide) h
    · exact hname "infinity" (by decide) h

theorem not_numeral_of_hexMark {mark : Char} {rest : List Char}
    (hmark : Literal.isHexMark mark = true) :
    ¬ Literal.Numeral isDigit isDecimalMark ('0' :: mark :: rest) := by
  intro h
  have hle := (Literal.decimalLength_longest _).2 _ h List.prefix_rfl
  rw [Literal.decimalLength_hexMark hmark, List.length_cons, List.length_cons] at hle
  omega

theorem chars?_decimal (h : Parts isDigit isDecimalMark text whole fraction n) :
    chars? text =
      some (Decimal.toFloat false ⟨natValue (whole ++ fraction), n - fraction.length⟩) := by
  have hhex : ∀ mark rest, Literal.isHexMark mark = true → text = '0' :: mark :: rest → False := by
    rintro mark rest hmark rfl
    exact not_numeral_of_hexMark hmark h.numeral
  have hread := decimal?_parts h
  obtain ⟨c, rest, rfl, hc⟩ := h.head
  have hsign : c ≠ '+' ∧ c ≠ '-' := by
    constructor
    · rintro rfl
      exact hc.elim (by decide) (by decide)
    · rintro rfl
      exact hc.elim (by decide) (by decide)
  rw [chars?.eq_3 _ (fun tail => hhex 'x' tail rfl) fun tail => hhex 'X' tail rfl,
    signed?.eq_3 _ (fun tail htail => hsign.1 (List.cons.inj htail).1)
      fun tail htail => hsign.2 (List.cons.inj htail).1,
    unsigned?_of_head hc, hread, Option.map_some]

theorem chars?_hexadecimal (h : HexParts text whole fraction n) :
    chars? text =
      if fitsBinaryExponent n then
        some (Arithmetic.float.hexValue (whole.map digitValue) (fraction.map digitValue) n)
      else none := by
  obtain ⟨mark, digits, hmark, hparts, rfl⟩ := h
  have hread := hex?_parts .float hparts
  simp only [Literal.isHexMark, Bool.or_eq_true, beq_iff_eq] at hmark
  rcases hmark with rfl | rfl
  · exact hread
  · exact hread

end Reading

end EventCuts
