import EventCuts.Expr.Name
import EventCuts.Proofs.Names

/-!
# Plain names

What becomes of a name that is spelled out for a file name. The text is collapsed until no two
underscores stand side by side, which comes to an end since every round is shorter. But then
characters without a word are dropped, and underscores on both sides of them meet: such a name is
collapsed only when it is spelled out once more.
-/

namespace EventCuts.Name

def Doubled (text : List Char) : Prop := ['_', '_'] <:+: text

instance (text : List Char) : Decidable (Doubled text) :=
  inferInstanceAs (Decidable (['_', '_'] <:+: text))

theorem doubled_cons_iff (c : Char) (rest : List Char) :
    Doubled (c :: rest) ↔ c = '_' ∧ rest.head? = some '_' ∨ Doubled rest := by
  rw [Doubled, List.infix_cons_iff, List.cons_prefix_cons]
  cases rest with
  | nil => simp [Doubled]
  | cons d rest => simp [Doubled, List.cons_prefix_cons, eq_comm]

/-! Collapsing at once and in rounds. -/

theorem head?_collapse (text : List Char) : (collapse text).head? = text.head? := by
  fun_induction collapse text with
  | case1 rest ih => exact ih
  | case2 c rest _ _ => rfl
  | case3 => rfl

theorem collapse_cons (c : Char) (rest : List Char) :
    collapse (c :: rest) =
      if c = '_' ∧ rest.head? = some '_' then collapse rest else c :: collapse rest := by
  by_cases h : c = '_' ∧ rest.head? = some '_'
  · rcases h with ⟨rfl, hrest⟩
    rcases List.head?_eq_some_iff.1 hrest with ⟨more, rfl⟩
    rw [if_pos ⟨rfl, rfl⟩, collapse]
  · rw [if_neg h, collapse]
    intro more hc hrest
    exact h ⟨hc, by rw [hrest]; rfl⟩

theorem not_doubled_collapse (text : List Char) : ¬ Doubled (collapse text) := by
  induction text with
  | nil => decide
  | cons c rest ih =>
    rw [collapse_cons]
    split
    · exact ih
    · next h =>
      rw [doubled_cons_iff, head?_collapse]
      exact not_or.2 ⟨h, ih⟩

theorem collapse_eq_self_iff (text : List Char) : collapse text = text ↔ ¬ Doubled text := by
  constructor
  · intro h
    rw [← h]
    exact not_doubled_collapse text
  · intro h
    induction text with
    | nil => rfl
    | cons c rest ih =>
      rw [doubled_cons_iff, not_or] at h
      rw [collapse_cons, if_neg h.1, ih h.2]

theorem collapse_subset (text : List Char) : collapse text ⊆ text := by
  induction text with
  | nil => exact List.Subset.refl []
  | cons c rest ih =>
    rw [collapse_cons]
    split
    · exact List.subset_cons_of_subset c ih
    · exact List.cons_subset_cons c ih

def halve (text : List Char) : List Char := replacePair '_' '_' ['_'] text

theorem halve_cons_cons (c d : Char) (rest : List Char) :
    halve (c :: d :: rest) =
      if c = '_' ∧ d = '_' then '_' :: halve rest else c :: halve (d :: rest) := by
  rw [halve, replacePair]
  rfl

theorem head?_halve (text : List Char) : (halve text).head? = text.head? := by
  rcases text with _ | ⟨c, _ | ⟨d, rest⟩⟩
  · rfl
  · rfl
  · rw [halve_cons_cons]
    split
    · next h => rw [h.1]; rfl
    · rfl

theorem collapse_halve : ∀ text, collapse (halve text) = collapse text
  | [] => rfl
  | [_] => rfl
  | c :: d :: rest => by
    -- What a round leaves of the rest starts as the rest does, so the same underscores go.
    rw [halve_cons_cons]
    split
    · next h =>
      rcases h with ⟨rfl, rfl⟩
      rw [collapse_cons, head?_halve, collapse_halve rest, collapse, ← collapse_cons]
    · rw [collapse_cons, head?_halve, collapse_halve (d :: rest), ← collapse_cons]

theorem length_halve_le : ∀ text : List Char, (halve text).length ≤ text.length
  | [] => Nat.le_refl _
  | [_] => Nat.le_refl _
  | c :: d :: rest => by
    rw [halve_cons_cons]
    split
    · have hrest := length_halve_le rest
      simp only [List.length_cons]
      omega
    · have hrest := length_halve_le (d :: rest)
      simp only [List.length_cons] at hrest ⊢
      omega

theorem length_halve_lt : ∀ {text : List Char}, Doubled text → (halve text).length < text.length
  | [], h => absurd h (by decide)
  | [c], h => by
    rw [doubled_cons_iff] at h
    rcases h with ⟨_, h⟩ | h
    · cases h
    · exact absurd h (by decide)
  | c :: d :: rest, h => by
    rw [halve_cons_cons]
    split
    · have hrest := length_halve_le rest
      simp only [List.length_cons]
      omega
    · next hpair =>
      have hlater : Doubled (d :: rest) := by
        rcases (doubled_cons_iff c (d :: rest)).1 h with ⟨hc, hd⟩ | hlater
        · exact absurd ⟨hc, Option.some.inj hd⟩ hpair
        · exact hlater
      have hrest := length_halve_lt hlater
      simp only [List.length_cons] at hrest ⊢
      omega

/-- Rounds as long as two underscores stand side by side. -/
def collapseInRounds (text : List Char) : List Char :=
  if Doubled text then collapseInRounds (halve text) else text
termination_by text.length
decreasing_by exact length_halve_lt ‹Doubled text›

theorem collapseInRounds_eq (text : List Char) : collapseInRounds text = collapse text := by
  fun_induction collapseInRounds text with
  | case1 text h ih => rw [ih, collapse_halve]
  | case2 text h => exact ((collapse_eq_self_iff text).2 h).symm

/-! What is spelled out already stays as it is. -/

section Spelled

variable {text : List Char}

theorem replacePair_of_not_mem {first : Char} (h : first ∉ text) (second : Char)
    (word : List Char) : replacePair first second word text = text := by
  fun_induction replacePair first second word text with
  | case1 c d rest hmatch ih => exact absurd (hmatch.1 ▸ List.mem_cons_self) h
  | case2 c d rest hmatch ih => rw [ih fun hmem => h (List.mem_cons_of_mem c hmem)]
  | case3 rest _ => rfl

theorem replaceChar_of_not_mem {char : Char} (h : char ∉ text) (word : List Char) :
    replaceChar char word text = text := by
  induction text with
  | nil => rfl
  | cons c rest ih =>
    rw [List.mem_cons, not_or] at h
    have hrest := ih h.2
    rw [replaceChar] at hrest ⊢
    rw [List.flatMap_cons, if_neg (Ne.symm h.1), hrest, List.singleton_append]

theorem foldl_eq_self {α β : Type} {step : β → α → β} {b : β} {as : List α}
    (h : ∀ a ∈ as, step b a = b) : as.foldl step b = b := by
  induction as with
  | nil => rfl
  | cons a as ih =>
    rcases List.forall_mem_cons.1 h with ⟨ha, has⟩
    rw [List.foldl_cons, ha, ih has]

theorem not_mem_of_spelled {c : Char} (h : ∀ d ∈ text, Lexeme.isNameChar d = true)
    (hc : Lexeme.isNameChar c = false) : c ∉ text := by
  intro hmem
  rw [h c hmem] at hc
  cases hc

theorem spellPairs_of_spelled (h : ∀ c ∈ text, Lexeme.isNameChar c = true) :
    spellPairs text = text := by
  have hwords : ∀ pair ∈ pairWords, Lexeme.isNameChar pair.1 = false := by decide
  exact foldl_eq_self fun pair hpair =>
    replacePair_of_not_mem (not_mem_of_spelled h (hwords pair hpair)) _ _

theorem spellChars_of_spelled (h : ∀ c ∈ text, Lexeme.isNameChar c = true) :
    spellChars text = text := by
  have hwords : ∀ pair ∈ charWords, Lexeme.isNameChar pair.1 = false := by decide
  exact foldl_eq_self fun pair hpair =>
    replaceChar_of_not_mem (not_mem_of_spelled h (hwords pair hpair)) _

theorem plainChars_of_spelled (h : ∀ c ∈ text, Lexeme.isNameChar c = true) :
    plainChars text = collapse text := by
  rw [plainChars, spellPairs_of_spelled h, spellChars_of_spelled h, List.filter_eq_self]
  exact fun c hc => h c (collapse_subset text hc)

end Spelled

theorem isNameChar_of_mem_plain {name : String} {c : Char} (h : c ∈ (plain name).toList) :
    Lexeme.isNameChar c = true := by
  rw [plain, String.toList_ofList, plainChars] at h
  exact (List.mem_filter.1 h).2

theorem toList_plain_plain (name : String) :
    (plain (plain name)).toList = collapse (plain name).toList := by
  have hspelled : ∀ c ∈ (plain name).toList, Lexeme.isNameChar c = true :=
    fun c hc => isNameChar_of_mem_plain hc
  have hstrip : (Text.stripBlanks (plain name)).toList = (plain name).toList := by
    rw [Text.toList_stripBlanks, List.filter_eq_self]
    intro c hc
    rw [Lexeme.not_blank_of_visible (Lexeme.visible_of_isNameChar (hspelled c hc))]
    rfl
  rw [plain, String.toList_ofList, hstrip, plainChars_of_spelled hspelled]

def spelledOut (name : String) : List Char :=
  collapse (spellChars (spellPairs (Text.stripBlanks name).toList))

theorem toList_plain (name : String) :
    (plain name).toList = (spelledOut name).filter Lexeme.isNameChar := by
  rw [plain, String.toList_ofList, plainChars, spelledOut]

theorem doubled_filter_iff {keep : Char → Bool} (hkeep : keep '_' = true) (text : List Char) :
    Doubled (text.filter keep) ↔
      ∃ dropped, (∀ c ∈ dropped, keep c = false) ∧ '_' :: (dropped ++ ['_']) <:+: text := by
  constructor
  · intro ⟨front, back, hfilter⟩
    rw [List.append_assoc] at hfilter
    rcases List.filter_eq_append_iff.1 hfilter.symm with ⟨before, behind, rfl, _, hbehind⟩
    rcases List.filter_eq_cons_iff.1 hbehind with ⟨skipped, more, rfl, _, _, hmore⟩
    rcases List.filter_eq_cons_iff.1 hmore with ⟨dropped, rest, rfl, hdropped, _, _⟩
    refine ⟨dropped, fun c hc => Bool.eq_false_of_not_eq_true (hdropped c hc), before ++ skipped,
      rest, ?_⟩
    simp
  · intro ⟨dropped, hdropped, front, back, htext⟩
    refine ⟨front.filter keep, back.filter keep, ?_⟩
    have hnone : dropped.filter keep = [] := by
      rw [List.filter_eq_nil_iff]
      intro c hc
      rw [hdropped c hc]
      exact Bool.false_ne_true
    simp [← htext, hkeep, hnone]

theorem doubled_plain_iff (name : String) :
    Doubled (plain name).toList ↔
      ∃ dropped, dropped ≠ [] ∧ (∀ c ∈ dropped, Lexeme.isNameChar c = false) ∧
        '_' :: (dropped ++ ['_']) <:+: spelledOut name := by
  rw [toList_plain, doubled_filter_iff (by decide)]
  constructor
  · intro ⟨dropped, hdropped, hinfix⟩
    refine ⟨dropped, ?_, hdropped, hinfix⟩
    rintro rfl
    exact not_doubled_collapse _ hinfix
  · intro ⟨dropped, _, hdropped, hinfix⟩
    exact ⟨dropped, hdropped, hinfix⟩

theorem plain_plain_iff (name : String) :
    plain (plain name) = plain name ↔ ¬ Doubled (plain name).toList := by
  rw [← collapse_eq_self_iff, ← toList_plain_plain, String.toList_inj]

end EventCuts.Name

namespace EventCuts.Expr

variable {C : Type}

/-- A plain name consists of letters, digits and underscores, and it is spelled out and collapsed
in rounds that come to an end. It stays as it is, renamed and spelled out again, exactly if no two
underscores have met since, and then, at the latest, they are collapsed. -/
theorem plainName_stays_iff (e : Expr C) :
    (∀ c ∈ e.plainName.toList, c.isAlphanum = true ∨ c = '_') ∧
    (Name.collapseInRounds
          (Name.spellChars (Name.spellPairs (Text.stripBlanks e.name).toList)) =
        Name.spelledOut e.name ∧
      ¬ Name.Doubled (Name.spelledOut e.name) ∧
      e.plainName.toList = (Name.spelledOut e.name).filter Lexeme.isNameChar) ∧
    (Name.Doubled e.plainName.toList ↔
      ∃ dropped, dropped ≠ [] ∧ (∀ c ∈ dropped, Lexeme.isNameChar c = false) ∧
        '_' :: (dropped ++ ['_']) <:+: Name.spelledOut e.name) ∧
    ((e.rename e.plainName).plainName = e.plainName ↔ ¬ Name.Doubled e.plainName.toList) ∧
    ¬ Name.Doubled (e.rename e.plainName).plainName.toList := by
  refine ⟨fun c hc => ?_, ⟨?_, ?_, ?_⟩, ?_, ?_, ?_⟩
  · have hname := Name.isNameChar_of_mem_plain hc
    rw [Lexeme.isNameChar, Bool.or_eq_true, beq_iff_eq] at hname
    exact hname
  · exact Name.collapseInRounds_eq _
  · exact Name.not_doubled_collapse _
  · exact Name.toList_plain e.name
  · exact Name.doubled_plain_iff e.name
  · exact Name.plain_plain_iff e.name
  · have hagain : (e.rename e.plainName).plainName.toList = Name.collapse e.plainName.toList :=
      Name.toList_plain_plain e.name
    rw [hagain]
    exact Name.not_doubled_collapse _

theorem plainName_doubled :
    let e : Expr Unit := Expr.scalar "_$_" fun _ => .ok 0
    e.plainName = "__" ∧ Name.Doubled e.plainName.toList ∧
      (e.rename e.plainName).plainName = "_" := by
  decide +kernel

end EventCuts.Expr
