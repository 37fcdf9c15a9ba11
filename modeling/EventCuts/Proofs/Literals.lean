import EventCuts.Number.Literal

/-!
# The language of numeric literals

What a literal looks like, apart from how far one is scanned: a mantissa and an optional
exponent, in decimal or behind `0x`. The scanned length is that of the longest prefix in the
language, and nothing behind a character that no literal has can change it.
-/

namespace EventCuts.Literal

variable {accepts isMark : Char → Bool} {text p : List Char}

def Run (accepts : Char → Bool) (text : List Char) : Prop := ∀ c ∈ text, accepts c = true

instance (accepts : Char → Bool) (text : List Char) : Decidable (Run accepts text) :=
  inferInstanceAs (Decidable (∀ c ∈ text, accepts c = true))

def Mantissa (accepts : Char → Bool) (text : List Char) : Prop :=
  (text ≠ [] ∧ Run accepts text) ∨
    ∃ whole fraction, Run accepts whole ∧ Run accepts fraction ∧ whole ++ fraction ≠ [] ∧
      text = whole ++ '.' :: fraction

def Exponent (isMark : Char → Bool) (text : List Char) : Prop :=
  ∃ mark sign digits, isMark mark = true ∧ sign.length ≤ 1 ∧ Run isSign sign ∧ digits ≠ [] ∧
    Run isDigit digits ∧ text = mark :: (sign ++ digits)

def Numeral (accepts isMark : Char → Bool) (text : List Char) : Prop :=
  ∃ mantissa exponent, Mantissa accepts mantissa ∧ (exponent = [] ∨ Exponent isMark exponent) ∧
    text = mantissa ++ exponent

def Hexadecimal (text : List Char) : Prop :=
  ∃ mark digits, isHexMark mark = true ∧ Numeral isHexDigit isBinaryMark digits ∧
    text = '0' :: mark :: digits

def IsLiteral (text : List Char) : Prop := Numeral isDigit isDecimalMark text ∨ Hexadecimal text

def Bounds (P : List Char → Prop) (text : List Char) (n : Nat) : Prop :=
  ∀ p, P p → p <+: text → p.length ≤ n

/-- Some prefix in the language has the length `n`, and no longer one is. -/
def Longest (P : List Char → Prop) (text : List Char) (n : Nat) : Prop :=
  (∃ p, P p ∧ p <+: text ∧ p.length = n) ∧ Bounds P text n

def Stops (accepts : Char → Bool) (text : List Char) : Prop := ∀ c ∈ text.head?, accepts c = false

theorem run_append {rest : List Char} (hp : Run accepts p) (hrest : Stops accepts rest) :
    run accepts (p ++ rest) = p.length := by
  have hstop : rest.takeWhile accepts = [] := by
    cases rest with
    | nil => rfl
    | cons c rest => simp [hrest c rfl]
  rw [run, List.takeWhile_append_of_pos hp, hstop, List.append_nil]

theorem le_run (hp : Run accepts p) (h : p <+: text) : p.length ≤ run accepts text := by
  obtain ⟨rest, rfl⟩ := h
  rw [run, List.takeWhile_append_of_pos hp, List.length_append]
  exact Nat.le_add_right _ _

theorem exists_run (accepts : Char → Bool) (text : List Char) :
    ∃ p rest, text = p ++ rest ∧ Run accepts p ∧ Stops accepts rest := by
  refine ⟨text.takeWhile accepts, text.dropWhile accepts, ?_, ?_, ?_⟩
  · exact List.takeWhile_append_dropWhile.symm
  · exact fun c hc => List.all_eq_true.1 List.all_takeWhile c hc
  · intro c hc
    have hnot := List.head?_dropWhile_not accepts text
    rw [Option.mem_def.1 hc] at hnot
    exact hnot

theorem run_unique {q rest other : List Char} (h : p ++ rest = q ++ other) (hp : Run accepts p)
    (hrest : Stops accepts rest) (hq : Run accepts q) (hother : Stops accepts other) :
    p = q ∧ rest = other := by
  have hlength : p.length = q.length := by
    rw [← run_append hp hrest, h, run_append hq hother]
  exact List.append_inj h hlength

theorem mantissaLength_run {rest : List Char} (hp : Run accepts p) (hrest : Stops accepts rest)
    (hdot : '.' ∉ rest.head?) :
    mantissaLength accepts (p ++ rest) = if p.length = 0 then none else some p.length := by
  have hrun := run_append hp hrest
  have hdrop : (p ++ rest).drop p.length = rest := List.drop_left
  simp only [mantissaLength, hrun, hdrop]
  cases rest with
  | nil => rfl
  | cons c rest =>
    split
    · next h =>
      cases h
      exact absurd rfl hdot
    · rfl

theorem mantissaLength_point {q rest : List Char} (hdot : accepts '.' = false)
    (hp : Run accepts p) (hq : Run accepts q) (hrest : Stops accepts rest) :
    mantissaLength accepts (p ++ '.' :: (q ++ rest)) =
      if p.length + q.length = 0 then none else some (p.length + 1 + q.length) := by
  have hstop : Stops accepts ('.' :: (q ++ rest)) := by
    intro c hc
    cases hc
    exact hdot
  have hrun := run_append hp hstop
  have hdrop : (p ++ '.' :: (q ++ rest)).drop p.length = '.' :: (q ++ rest) := List.drop_left
  simp only [mantissaLength, hrun, hdrop, run_append hq hrest]

theorem mantissaLength_append {rest : List Char} (hdot : accepts '.' = false)
    (hp : Mantissa accepts p) (hrest : Stops accepts rest) (hpoint : '.' ∉ rest.head?) :
    mantissaLength accepts (p ++ rest) = some p.length := by
  rcases hp with ⟨hne, hrun⟩ | ⟨whole, fraction, hw, hf, hne, rfl⟩
  · rw [mantissaLength_run hrun hrest hpoint, if_neg]
    exact fun h => hne (List.length_eq_zero_iff.1 h)
  · rw [List.append_assoc, List.cons_append, mantissaLength_point hdot hw hf hrest, if_neg]
    · simp only [List.length_append, List.length_cons]
      congr 1
      omega
    · rw [← List.length_append]
      exact fun h => hne (List.length_eq_zero_iff.1 h)

theorem stops_point (hdot : accepts '.' = false) (rest : List Char) :
    Stops accepts ('.' :: rest) := by
  intro c hc
  cases hc
  exact hdot

theorem mantissa_in_front {whole rest : List Char} (hdot : accepts '.' = false)
    (hw : Run accepts whole) (hrest : Stops accepts rest) (hp : Mantissa accepts p)
    (h : p <+: whole ++ rest) :
    (p ≠ [] ∧ p.length ≤ whole.length) ∨
      ∃ fraction tail, Run accepts fraction ∧ whole ++ fraction ≠ [] ∧
        p.length = whole.length + 1 + fraction.length ∧ rest = '.' :: (fraction ++ tail) := by
  rcases hp with ⟨hne, hrun⟩ | ⟨digits, fraction, hd, hf, hne, rfl⟩
  · have hle := le_run hrun h
    rw [run_append hw hrest] at hle
    exact .inl ⟨hne, hle⟩
  · obtain ⟨tail, ht⟩ := h
    rw [List.append_assoc, List.cons_append] at ht
    obtain ⟨rfl, rfl⟩ := run_unique ht hd (stops_point hdot _) hw hrest
    refine .inr ⟨fraction, tail, hf, hne, ?_, rfl⟩
    rw [List.length_append, List.length_cons]
    omega

theorem mantissaLength_longest (hdot : accepts '.' = false) (text : List Char) :
    (∀ n, mantissaLength accepts text = some n → Longest (Mantissa accepts) text n) ∧
      (mantissaLength accepts text = none → ∀ p, Mantissa accepts p → ¬ p <+: text) := by
  obtain ⟨whole, rest, rfl, hw, hrest⟩ := exists_run accepts text
  -- Digits first: a point counts only directly behind them, and not alone.
  by_cases hpoint : '.' ∈ rest.head?
  · obtain ⟨tail, rfl⟩ : ∃ tail, rest = '.' :: tail := by
      cases rest with
      | nil => cases hpoint
      | cons c tail => exact ⟨tail, by cases hpoint; rfl⟩
    obtain ⟨fraction, rest, rfl, hf, hstop⟩ := exists_run accepts tail
    have hbound : ∀ p, Mantissa accepts p → p <+: whole ++ '.' :: (fraction ++ rest) →
        0 < whole.length + fraction.length ∧ p.length ≤ whole.length + 1 + fraction.length := by
      intro p hp h
      rcases mantissa_in_front hdot hw hrest hp h with ⟨hne, hle⟩ | ⟨other, tail, ho, hne, hlen, ht⟩
      · have hpos := List.length_pos_iff.2 hne
        omega
      · have hle := le_run ho ⟨tail, (List.cons.inj ht).2.symm⟩
        have hpos := List.length_pos_iff.2 hne
        rw [run_append hf hstop] at hle
        rw [List.length_append] at hpos
        omega
    rw [mantissaLength_point hdot hw hf hstop]
    by_cases hempty : whole.length + fraction.length = 0
    · rw [if_pos hempty]
      refine ⟨nofun, fun _ p hp h => ?_⟩
      have hpos := (hbound p hp h).1
      omega
    · rw [if_neg hempty]
      refine ⟨?_, nofun⟩
      rintro _ ⟨⟩
      refine ⟨⟨whole ++ '.' :: fraction, .inr ⟨whole, fraction, hw, hf, ?_, rfl⟩, ?_, ?_⟩,
        fun p hp h => (hbound p hp h).2⟩
      · exact fun h => hempty (by rw [← List.length_append, h, List.length_nil])
      · exact ⟨rest, by simp⟩
      · simp only [List.length_append, List.length_cons]
        omega
  · have hbound : ∀ p, Mantissa accepts p → p <+: whole ++ rest →
        0 < whole.length ∧ p.length ≤ whole.length := by
      intro p hp h
      rcases mantissa_in_front hdot hw hrest hp h with ⟨hne, hle⟩ | ⟨_, _, _, _, _, rfl⟩
      · have hpos := List.length_pos_iff.2 hne
        omega
      · exact absurd rfl hpoint
    rw [mantissaLength_run hw hrest hpoint]
    by_cases hempty : whole.length = 0
    · rw [if_pos hempty]
      refine ⟨nofun, fun _ p hp h => ?_⟩
      have hpos := (hbound p hp h).1
      omega
    · rw [if_neg hempty]
      refine ⟨?_, nofun⟩
      rintro _ ⟨⟩
      refine ⟨⟨whole, .inl ⟨?_, hw⟩, ⟨rest, rfl⟩, rfl⟩, fun p hp h => (hbound p hp h).2⟩
      exact fun h => hempty (by rw [h, List.length_nil])

theorem isSign_of_isDigit {c : Char} (h : isDigit c = true) : isSign c = false := by
  simp only [isDigit, Bool.and_eq_true, decide_eq_true_eq] at h
  simp only [isSign, Bool.or_eq_false_iff, beq_eq_false_iff_ne]
  constructor
  · rintro rfl
    exact absurd h.1 (by decide)
  · rintro rfl
    exact absurd h.1 (by decide)

theorem signLength_append {sign digits rest : List Char} (hl : sign.length ≤ 1)
    (hs : Run isSign sign) (hne : digits ≠ []) (hd : Run isDigit digits) :
    signLength (sign ++ (digits ++ rest)) = sign.length := by
  rcases sign with _ | ⟨s, _ | ⟨_, _⟩⟩
  · cases digits with
    | nil => exact absurd rfl hne
    | cons d digits => simp [signLength, isSign_of_isDigit (hd d (by simp))]
  · simp [signLength, hs s (by simp)]
  · simp only [List.length_cons] at hl
    omega

theorem le_exponentLength (hp : Exponent isMark p) (h : p <+: text) :
    p.length ≤ exponentLength isMark text := by
  obtain ⟨mark, sign, digits, hm, hl, hs, hne, hd, rfl⟩ := hp
  obtain ⟨tail, rfl⟩ := h
  have hrun : digits.length ≤ run isDigit (digits ++ tail) := le_run hd ⟨tail, rfl⟩
  have hpos : 0 < digits.length := List.length_pos_iff.2 hne
  rw [List.cons_append, List.append_assoc, exponentLength, if_pos hm,
    signLength_append hl hs hne hd, List.drop_left]
  split
  · omega
  · simp only [List.length_cons, List.length_append]
    omega

theorem exists_exponent (h : 0 < exponentLength isMark text) :
    ∃ p, Exponent isMark p ∧ p <+: text ∧ p.length = exponentLength isMark text := by
  cases text with
  | nil => cases h
  | cons c rest =>
    simp only [exponentLength] at h ⊢
    by_cases hm : isMark c = true
    · rw [if_pos hm] at h ⊢
      have hsplit : rest = rest.take (signLength rest) ++ rest.drop (signLength rest) :=
        (List.take_append_drop _ _).symm
      obtain ⟨digits, tail, hdrop, hd, hstop⟩ := exists_run isDigit (rest.drop (signLength rest))
      have hsign : (rest.take (signLength rest)).length = signLength rest ∧
          signLength rest ≤ 1 ∧ Run isSign (rest.take (signLength rest)) := by
        cases rest with
        | nil => exact ⟨rfl, Nat.zero_le 1, nofun⟩
        | cons s rest => by_cases hs : isSign s = true <;> simp [signLength, hs, Run]
      rw [hdrop, run_append hd hstop] at h ⊢
      have hne : digits ≠ [] := by
        rintro rfl
        exact absurd h (Nat.lt_irrefl 0)
      refine ⟨c :: (rest.take (signLength rest) ++ digits), ⟨c, _, digits, hm, ?_, hsign.2.2, hne,
        hd, rfl⟩, ⟨tail, ?_⟩, ?_⟩
      · rw [hsign.1]
        exact hsign.2.1
      · rw [List.cons_append, List.append_assoc, ← hdrop, List.take_append_drop]
      · have hpos := List.length_pos_iff.2 hne
        rw [List.length_cons, List.length_append, hsign.1]
        split
        · omega
        · omega
    · rw [if_neg hm] at h
      cases h

theorem numeral_longest (hdot : accepts '.' = false)
    (hmark : ∀ c, isMark c = true → accepts c = false ∧ c ≠ '.') (text : List Char) :
    (∀ n, mantissaLength accepts text = some n →
        Longest (Numeral accepts isMark) text (n + exponentLength isMark (text.drop n))) ∧
      (mantissaLength accepts text = none → ∀ p, Numeral accepts isMark p → ¬ p <+: text) := by
  -- An exponent is looked for behind the longest mantissa, and it cannot stand elsewhere.
  have hlong := mantissaLength_longest hdot text
  refine ⟨fun n hn => ⟨?_, ?_⟩, ?_⟩
  · obtain ⟨⟨m, hm, ⟨rest, rfl⟩, rfl⟩, _⟩ := hlong.1 n hn
    rw [List.drop_left]
    rcases Nat.eq_zero_or_pos (exponentLength isMark rest) with hz | hpos
    · exact ⟨m, ⟨m, [], hm, .inl rfl, (List.append_nil m).symm⟩, ⟨rest, rfl⟩, by rw [hz]; rfl⟩
    · obtain ⟨e, he, ⟨tail, rfl⟩, hlen⟩ := exists_exponent hpos
      refine ⟨m ++ e, ⟨m, e, hm, .inr he, rfl⟩, ⟨tail, List.append_assoc _ _ _⟩, ?_⟩
      rw [List.length_append, hlen]
  · rintro p ⟨m, e, hm, he, rfl⟩ ⟨tail, rfl⟩
    rcases he with rfl | he
    · have hle := (hlong.1 n hn).2 m hm ⟨tail, by rw [List.append_nil]⟩
      rw [List.append_nil]
      omega
    · have he' := he
      obtain ⟨c, sign, digits, hc, _, _, _, _, rfl⟩ := he'
      have hstop : Stops accepts (c :: (sign ++ digits) ++ tail) := by
        rintro _ ⟨⟩
        exact (hmark c hc).1
      have hpoint : '.' ∉ (c :: (sign ++ digits) ++ tail).head? := by
        rintro ⟨⟩
        exact (hmark _ hc).2 rfl
      have hlen := mantissaLength_append hdot hm hstop hpoint
      rw [List.append_assoc] at hn ⊢
      obtain rfl : m.length = n := Option.some.inj (hlen.symm.trans hn)
      rw [List.drop_left, List.length_append]
      exact Nat.add_le_add_left (le_exponentLength he ⟨tail, rfl⟩) _
  · rintro hn p ⟨m, e, hm, _, rfl⟩ ⟨tail, rfl⟩
    exact hlong.2 hn m hm ⟨e ++ tail, (List.append_assoc _ _ _).symm⟩

theorem decimalMark_stops {c : Char} (h : isDecimalMark c = true) :
    isDigit c = false ∧ c ≠ '.' := by
  simp only [isDecimalMark, Bool.or_eq_true, beq_iff_eq] at h
  rcases h with rfl | rfl <;> decide

theorem binaryMark_stops {c : Char} (h : isBinaryMark c = true) :
    isHexDigit c = false ∧ c ≠ '.' := by
  simp only [isBinaryMark, Bool.or_eq_true, beq_iff_eq] at h
  rcases h with rfl | rfl <;> decide

theorem hexMark_stops {c : Char} (h : isHexMark c = true) :
    isDigit c = false ∧ c ≠ '.' ∧ isDecimalMark c = false := by
  simp only [isHexMark, Bool.or_eq_true, beq_iff_eq] at h
  rcases h with rfl | rfl <;> decide

theorem decimalLength_longest (text : List Char) :
    (0 < decimalLength text → Longest (Numeral isDigit isDecimalMark) text (decimalLength text)) ∧
      Bounds (Numeral isDigit isDecimalMark) text (decimalLength text) := by
  have hlong := @numeral_longest isDigit isDecimalMark (by decide) @decimalMark_stops text
  cases hn : mantissaLength isDigit text with
  | some n =>
    have h := hlong.1 n hn
    simp only [decimalLength, hn]
    exact ⟨fun _ => h, h.2⟩
  | none =>
    have h := hlong.2 hn
    simp only [decimalLength, hn]
    exact ⟨fun hpos => absurd hpos (Nat.lt_irrefl 0), fun p hp hfront => absurd hfront (h p hp)⟩

theorem hexLength_longest (text : List Char) :
    (∀ n, hexLength text = some n → 2 ≤ n ∧ Longest Hexadecimal text n) ∧
      (hexLength text = none → ∀ p, Hexadecimal p → ¬ p <+: text) := by
  by_cases hx : ∃ mark rest, isHexMark mark = true ∧ text = '0' :: mark :: rest
  · obtain ⟨mark, rest, hmark, rfl⟩ := hx
    have hlong := @numeral_longest isHexDigit isBinaryMark (by decide) @binaryMark_stops rest
    have hbehind : ∀ p, Hexadecimal p → p <+: '0' :: mark :: rest →
        ∃ digits, Numeral isHexDigit isBinaryMark digits ∧ digits <+: rest ∧
          p.length = 2 + digits.length := by
      intro p ⟨_, digits, _, hd, hp⟩ h
      subst hp
      refine ⟨digits, hd, ?_, ?_⟩
      · exact (List.cons_prefix_cons.1 (List.cons_prefix_cons.1 h).2).2
      · simp only [List.length_cons]
        omega
    simp only [hexLength, hmark, if_true, Option.map_eq_some_iff, Option.map_eq_none_iff]
    refine ⟨?_, ?_⟩
    · intro n ⟨m, hm, hn⟩
      subst hn
      obtain ⟨⟨digits, hd, hfront, hlen⟩, hbound⟩ := hlong.1 m hm
      refine ⟨Nat.le_add_right 2 _, ⟨'0' :: mark :: digits, ⟨mark, digits, hmark, hd, rfl⟩, ?_, ?_⟩,
        ?_⟩
      · exact List.cons_prefix_cons.2 ⟨rfl, List.cons_prefix_cons.2 ⟨rfl, hfront⟩⟩
      · simp only [List.length_cons]
        omega
      · intro p hp h
        obtain ⟨other, ho, hpre, hl⟩ := hbehind p hp h
        have hle := hbound other ho hpre
        omega
    · intro hn p hp h
      obtain ⟨other, ho, hpre, _⟩ := hbehind p hp h
      exact hlong.2 hn other ho hpre
  · have hnone : hexLength text = none := by
      unfold hexLength
      split
      · next mark rest => exact if_neg fun hmark => hx ⟨mark, rest, hmark, rfl⟩
      · rfl
    rw [hnone]
    refine ⟨nofun, ?_⟩
    intro _ p ⟨mark, digits, hmark, _, hp⟩ ⟨rest, hrest⟩
    exact hx ⟨mark, digits ++ rest, hmark, by rw [← hrest, hp]; rfl⟩

theorem decimalLength_hexMark {mark : Char} (hmark : isHexMark mark = true) (rest : List Char) :
    decimalLength ('0' :: mark :: rest) = 1 := by
  obtain ⟨hdigit, hpoint, hexp⟩ := hexMark_stops hmark
  have hzero : mantissaLength isDigit (['0'] ++ mark :: rest) = some ['0'].length := by
    have hrun : Run isDigit ['0'] := List.forall_mem_singleton.2 rfl
    refine mantissaLength_append (by decide) (.inl ⟨List.cons_ne_nil _ _, hrun⟩) ?_ ?_
    · intro c hc
      cases hc
      exact hdigit
    · intro hc
      cases hc
      exact hpoint rfl
  have hnone : exponentLength isDecimalMark (mark :: rest) = 0 := by
    simp [exponentLength, hexp]
  rw [List.singleton_append] at hzero
  simp only [decimalLength, hzero]
  exact congrArg (1 + ·) hnone

theorem length_longest (text : List Char) :
    (0 < length text → Longest IsLiteral text (length text)) ∧
      Bounds IsLiteral text (length text) := by
  obtain ⟨hdpos, hdbound⟩ := decimalLength_longest text
  obtain ⟨hxsome, hxnone⟩ := hexLength_longest text
  cases hn : hexLength text with
  | none =>
    have hbound : Bounds IsLiteral text (decimalLength text) := by
      intro p hp h
      rcases hp with hp | hp
      · exact hdbound p hp h
      · exact absurd h (hxnone hn p hp)
    simp only [length, hn, Option.getD_none]
    refine ⟨fun hpos => ⟨?_, hbound⟩, hbound⟩
    obtain ⟨⟨p, hp, h⟩, _⟩ := hdpos hpos
    exact ⟨p, .inl hp, h⟩
  | some n =>
    obtain ⟨htwo, ⟨p, hp, hfront, hlen⟩, hxbound⟩ := hxsome n hn
    have hdecimal : decimalLength text = 1 := by
      obtain ⟨mark, digits, hmark, _, rfl⟩ := hp
      obtain ⟨rest, rfl⟩ := hfront
      exact decimalLength_hexMark hmark _
    have hbound : Bounds IsLiteral text n := by
      intro q hq h
      rcases hq with hq | hq
      · have hle := hdbound q hq h
        omega
      · exact hxbound q hq h
    simp only [length, hn, Option.getD_some]
    exact ⟨fun _ => ⟨⟨p, .inr hp, hfront, hlen⟩, hbound⟩, hbound⟩

def uses (c : Char) : Bool :=
  isHexDigit c || c == '.' || isSign c || isHexMark c || isBinaryMark c

theorem visible_of_uses {c : Char} (h : uses c = true) : '!' ≤ c ∧ c ≤ '~' := by
  simp only [uses, isHexDigit, isDigit, isSign, isHexMark, isBinaryMark, Bool.or_eq_true,
    Bool.and_eq_true, decide_eq_true_eq, beq_iff_eq] at h
  rcases h with ((((((⟨hl, hh⟩ | ⟨hl, hh⟩) | ⟨hl, hh⟩) | rfl) | (rfl | rfl)) | (rfl | rfl)) |
    (rfl | rfl))
  · exact ⟨Char.le_trans (by decide) hl, Char.le_trans hh (by decide)⟩
  · exact ⟨Char.le_trans (by decide) hl, Char.le_trans hh (by decide)⟩
  · exact ⟨Char.le_trans (by decide) hl, Char.le_trans hh (by decide)⟩
  all_goals decide

theorem uses_of_run (h : ∀ c, accepts c = true → uses c = true) (hp : Run accepts p) :
    Run uses p :=
  fun c hc => h c (hp c hc)

theorem Mantissa.uses (h : ∀ c, accepts c = true → uses c = true) (hp : Mantissa accepts p) :
    Run uses p := by
  rcases hp with ⟨_, hrun⟩ | ⟨whole, fraction, hw, hf, _, rfl⟩
  · exact uses_of_run h hrun
  · exact List.forall_mem_append.2
      ⟨uses_of_run h hw, List.forall_mem_cons.2 ⟨by decide, uses_of_run h hf⟩⟩

theorem Exponent.uses (h : ∀ c, isMark c = true → uses c = true) (hp : Exponent isMark p) :
    Run uses p := by
  obtain ⟨mark, sign, digits, hm, _, hs, _, hd, rfl⟩ := hp
  have hsign : ∀ c, isSign c = true → Literal.uses c = true := by
    intro c hc
    simp [Literal.uses, hc]
  have hdigit : ∀ c, isDigit c = true → Literal.uses c = true := by
    intro c hc
    simp [Literal.uses, isHexDigit, hc]
  exact List.forall_mem_cons.2 ⟨h mark hm,
    List.forall_mem_append.2 ⟨uses_of_run hsign hs, uses_of_run hdigit hd⟩⟩

theorem Numeral.uses (ha : ∀ c, accepts c = true → uses c = true)
    (hm : ∀ c, isMark c = true → uses c = true) (hp : Numeral accepts isMark p) : Run uses p := by
  obtain ⟨m, e, hmantissa, rfl | he, rfl⟩ := hp
  · rw [List.append_nil]
    exact hmantissa.uses ha
  · exact List.forall_mem_append.2 ⟨hmantissa.uses ha, he.uses hm⟩

theorem IsLiteral.uses (hp : IsLiteral p) : Run uses p := by
  rcases hp with hp | ⟨mark, digits, hmark, hd, rfl⟩
  · refine hp.uses ?_ ?_
    · intro c hc
      simp [Literal.uses, isHexDigit, hc]
    · intro c hc
      simp only [isDecimalMark, Bool.or_eq_true, beq_iff_eq] at hc
      rcases hc with rfl | rfl <;> decide
  · refine List.forall_mem_cons.2 ⟨by decide, List.forall_mem_cons.2 ⟨?_, hd.uses ?_ ?_⟩⟩
    · simp [Literal.uses, hmark]
    · intro c hc
      simp [Literal.uses, hc]
    · intro c hc
      simp [Literal.uses, hc]

theorem length_append_congr {rest other : List Char}
    (hle : length (text ++ rest) ≤ text.length)
    (h : ∀ p, IsLiteral p → p <+: text ++ other → p <+: text ++ rest) :
    length (text ++ other) = length (text ++ rest) := by
  obtain ⟨hpos, hbound⟩ := length_longest (text ++ rest)
  obtain ⟨hpos', hbound'⟩ := length_longest (text ++ other)
  apply Nat.le_antisymm
  · rcases Nat.eq_zero_or_pos (length (text ++ other)) with hz | hp
    · exact hz ▸ Nat.zero_le _
    · obtain ⟨⟨p, hp, hfront, hlen⟩, _⟩ := hpos' hp
      exact hlen ▸ hbound p hp (h p hp hfront)
  · rcases Nat.eq_zero_or_pos (length (text ++ rest)) with hz | hp
    · exact hz ▸ Nat.zero_le _
    · obtain ⟨⟨p, hp, hfront, hlen⟩, _⟩ := hpos hp
      have htext : p <+: text :=
        List.prefix_of_prefix_length_le hfront (List.prefix_append _ _) (hlen ▸ hle)
      exact hlen ▸ hbound' p hp (htext.trans (List.prefix_append _ _))

end EventCuts.Literal
