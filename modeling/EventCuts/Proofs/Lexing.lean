import EventCuts.Proofs.Grammar
import EventCuts.Proofs.Literals
import Mathlib.Data.List.Forall2

/-!
# Lexemes and what stands behind them

A lexeme depends on what follows it, but not beyond the next bracket. So some lexemes of a
text can be replaced by bracketed pieces, and the pieces around them are cut as before.
-/

namespace EventCuts.Lexeme

def chars (ls : List Lexeme) : List Char := ls.flatMap fun l => l.text.toList

@[simp] theorem chars_nil : chars [] = [] := rfl

@[simp] theorem chars_cons (l : Lexeme) (ls : List Lexeme) :
    chars (l :: ls) = l.text.toList ++ chars ls := rfl

@[simp] theorem chars_append (ls ms : List Lexeme) : chars (ls ++ ms) = chars ls ++ chars ms :=
  List.flatMap_append

theorem toList_join (ls : List Lexeme) : (String.join (ls.map text)).toList = chars ls := by
  rw [String.toList_join, List.flatMap_map, chars]

theorem cut_cons (c : Char) (rest : List Char) :
    cut (c :: rest) = ⟨(scan c rest).1, String.ofList (c :: rest.take (scan c rest).2)⟩ ::
      cut (rest.drop (scan c rest).2) := by
  rw [cut]

theorem isNameChar_of_isNameStart {c : Char} (h : isNameStart c = true) :
    isNameChar c = true := by
  simp only [isNameStart, Bool.or_eq_true] at h
  simp only [isNameChar, Char.isAlphanum, Bool.or_eq_true]
  exact h.imp_left .inl

theorem scan_le_length (c : Char) (rest : List Char) : (scan c rest).2 ≤ rest.length := by
  unfold scan
  split
  · cases rest with
    | nil => simp_all [digraphAt]
    | cons d rest => exact Nat.le_add_left 1 _
  · split
    · exact Nat.zero_le _
    · split
      · exact Literal.run_le_length _ _
      · split
        · next n hn =>
          obtain ⟨⟨p, _, hp, hlen⟩, _⟩ := (Literal.length_longest (c :: rest)).1 (by omega)
          have hle := hp.length_le
          simp only [List.length_cons] at hle
          omega
        · exact Nat.zero_le _

def Ends (c : Char) : Prop := c ∈ ['(', ')', '[', ']']

instance (c : Char) : Decidable (Ends c) := inferInstanceAs (Decidable (c ∈ _))

theorem Ends.digraphAt {b : Char} (hb : Ends b) (c : Char) (rest : List Char) :
    digraphAt c (b :: rest) = none := by
  simp only [Ends, List.mem_cons, List.not_mem_nil, or_false] at hb
  rcases hb with rfl | rfl | rfl | rfl <;> simp [Lexeme.digraphAt, Kind.ofDigraph]

theorem Ends.isNameChar {b : Char} (hb : Ends b) : isNameChar b = false := by
  simp only [Ends, List.mem_cons, List.not_mem_nil, or_false] at hb
  rcases hb with rfl | rfl | rfl | rfl <;> decide

theorem Ends.uses {b : Char} (hb : Ends b) : Literal.uses b = false := by
  simp only [Ends, List.mem_cons, List.not_mem_nil, or_false] at hb
  rcases hb with rfl | rfl | rfl | rfl <;> decide

theorem Ends.not_blank {b : Char} (hb : Ends b) : Text.isBlank b = false := by
  simp only [Ends, List.mem_cons, List.not_mem_nil, or_false] at hb
  rcases hb with rfl | rfl | rfl | rfl <;> decide

/-- The other text is the same, or the same up to a bracket. -/
def Alike (rest other : List Char) : Prop :=
  other = rest ∨ ∃ same b tail, Ends b ∧ same <+: rest ∧ other = same ++ b :: tail

namespace Alike

variable {rest other : List Char}

theorem append (h : Alike rest other) (p : List Char) : Alike (p ++ rest) (p ++ other) := by
  rcases h with rfl | ⟨same, b, tail, hb, hs, rfl⟩
  · exact .inl rfl
  · refine .inr ⟨p ++ same, b, tail, hb, ?_, (List.append_assoc _ _ _).symm⟩
    exact (List.prefix_append_right_inj p).2 hs

theorem bracket {b : Char} (hb : Ends b) (same rest tail : List Char) :
    Alike (same ++ rest) (same ++ b :: tail) :=
  .inr ⟨same, b, tail, hb, List.prefix_append _ _, rfl⟩

theorem head (h : Alike rest other) :
    other.head? = rest.head? ∨ ∃ b tail, Ends b ∧ other = b :: tail := by
  rcases h with rfl | ⟨same, b, tail, hb, ⟨back, rfl⟩, rfl⟩
  · exact .inl rfl
  · cases same with
    | nil => exact .inr ⟨b, tail, hb, rfl⟩
    | cons d same => exact .inl rfl

theorem literal (h : Alike rest other) {p : List Char} (hp : Literal.IsLiteral p)
    (hfront : p <+: other) : p <+: rest := by
  rcases h with rfl | ⟨same, b, tail, hb, hs, rfl⟩
  · exact hfront
  · refine List.IsPrefix.trans ?_ hs
    refine List.prefix_of_prefix_length_le hfront (List.prefix_append _ _) ?_
    apply Nat.le_of_not_lt
    intro hlt
    obtain ⟨back, hback⟩ := List.prefix_of_prefix_length_le (List.prefix_append same _) hfront
      (Nat.le_of_lt hlt)
    cases back with
    | nil =>
      rw [List.append_nil] at hback
      exact Nat.lt_irrefl _ (hback ▸ hlt)
    | cons d back =>
      obtain ⟨more, hmore⟩ := hfront
      rw [← hback, List.append_assoc, List.append_cancel_left_eq] at hmore
      obtain rfl : d = b := (List.cons.inj hmore).1
      have huses := hp.uses d (hback ▸ List.mem_append_right _ List.mem_cons_self)
      rw [hb.uses] at huses
      cases huses

end Alike

theorem digraphAt_alike {c : Char} {p rest other : List Char}
    (h : (scan c (p ++ rest)).2 = p.length) (hr : Alike rest other) :
    digraphAt c (p ++ other) = digraphAt c (p ++ rest) := by
  cases p with
  | cons d p => rfl
  | nil =>
    simp only [List.nil_append] at h ⊢
    rcases hr.head with hhead | ⟨b, tail, hb, rfl⟩
    · cases other <;> cases rest <;> simp_all [digraphAt]
    · cases hd : digraphAt c rest with
      | none => exact hb.digraphAt c tail
      | some kind => simp [scan, hd] at h

theorem run_alike {p rest other : List Char}
    (h : Literal.run isNameChar (p ++ rest) = p.length) (hr : Alike rest other) :
    Literal.run isNameChar (p ++ other) = p.length := by
  obtain ⟨name, back, heq, hn, hback⟩ := Literal.exists_run isNameChar (p ++ rest)
  rw [heq, Literal.run_append hn hback] at h
  obtain ⟨rfl, rfl⟩ := List.append_inj heq h.symm
  refine Literal.run_append hn ?_
  intro d hd
  rcases hr.head with hhead | ⟨b, tail, hb, rfl⟩
  · exact hback d (hhead ▸ hd)
  · cases hd
    exact hb.isNameChar

theorem length_alike {text rest other : List Char}
    (h : Literal.length (text ++ rest) ≤ text.length) (hr : Alike rest other) :
    Literal.length (text ++ other) = Literal.length (text ++ rest) :=
  Literal.length_append_congr h fun _ hp hfront => (hr.append text).literal hp hfront

theorem scan_alike {c : Char} {p rest other : List Char}
    (h : (scan c (p ++ rest)).2 = p.length) (hr : Alike rest other) :
    scan c (p ++ other) = scan c (p ++ rest) := by
  have hdigraph := digraphAt_alike h hr
  unfold scan at h ⊢
  rw [hdigraph]
  cases hd : digraphAt c (p ++ rest) with
  | some kind => rfl
  | none =>
    cases hp : Kind.ofPunctuation c with
    | some kind => rfl
    | none =>
      simp only [hd, hp] at h ⊢
      by_cases hname : isNameStart c = true
      · rw [if_pos hname] at h ⊢
        rw [if_pos hname, run_alike h hr, ← h]
      · rw [if_neg hname] at h ⊢
        rw [if_neg hname]
        have hle : Literal.length (c :: p ++ rest) ≤ (c :: p).length := by
          rw [List.cons_append, List.length_cons]
          cases hlen : Literal.length (c :: (p ++ rest)) with
          | zero => exact Nat.zero_le _
          | succ n =>
            rw [hlen] at h
            exact Nat.succ_le_succ (Nat.le_of_eq h)
        have hlen := length_alike hle hr
        rw [List.cons_append, List.cons_append] at hlen
        rw [hlen]

theorem cut_append_alike {l : Lexeme} {rest other : List Char}
    (h : cut (l.text.toList ++ rest) = l :: cut rest) (hr : Alike rest other) :
    cut (l.text.toList ++ other) = l :: cut other := by
  cases htext : l.text.toList with
  | nil => exact absurd htext (@cut_ne_empty (l.text.toList ++ rest) l (h ▸ List.mem_cons_self))
  | cons c p =>
    rw [htext, List.cons_append, cut_cons] at h
    obtain ⟨hl, hrest⟩ := List.cons.inj h
    have htake : c :: (p ++ rest).take (scan c (p ++ rest)).2 = c :: p := by
      rw [← htext, ← hl, String.toList_ofList]
    have hscan : (scan c (p ++ rest)).2 = p.length := by
      have hlen := congrArg List.length (List.cons.inj htake).2
      have hle := scan_le_length c (p ++ rest)
      rwa [List.length_take, Nat.min_eq_left hle] at hlen
    have hsame := scan_alike hscan hr
    rw [List.cons_append, cut_cons, hsame, hscan, List.take_left, List.drop_left, ← hl, hscan,
      List.take_left]

/-- The lexemes are those that their own text is cut into. -/
def Lexed (ls : List Lexeme) : Prop := cut (chars ls) = ls

instance (ls : List Lexeme) : Decidable (Lexed ls) :=
  inferInstanceAs (Decidable (cut (chars ls) = ls))

theorem lexed_cut (text : List Char) : Lexed (cut text) := by
  rw [Lexed, chars, flatMap_text_cut]

theorem Lexed.cons_inv {l : Lexeme} {ls : List Lexeme} (h : Lexed (l :: ls)) :
    Lexed ls ∧ cut (l.text.toList ++ chars ls) = l :: cut (chars ls) := by
  have hls : Lexed ls := by
    cases htext : chars (l :: ls) with
    | nil =>
      rw [Lexed, htext, cut] at h
      cases h
    | cons c rest =>
      rw [Lexed, htext, cut_cons] at h
      obtain ⟨_, hrest⟩ := List.cons.inj h
      rw [← hrest]
      exact lexed_cut _
  refine ⟨hls, ?_⟩
  rw [hls]
  exact h

theorem Lexed.append_bracket {ls : List Lexeme} (h : Lexed ls) {b : Char} (hb : Ends b)
    (tail : List Char) : cut (chars ls ++ b :: tail) = ls ++ cut (b :: tail) := by
  induction ls with
  | nil => rfl
  | cons l ls ih =>
    obtain ⟨hls, hl⟩ := h.cons_inv
    have halike : Alike (chars ls) (chars ls ++ b :: tail) := by
      have hfront := Alike.bracket hb (chars ls) [] tail
      rwa [List.append_nil] at hfront
    rw [chars_cons, List.append_assoc, cut_append_alike hl halike, ih hls, List.cons_append]

def Bracketed (ms : List Lexeme) : Prop :=
  (∃ b tail, Ends b ∧ chars ms = b :: tail) ∧ ∀ rest, cut (chars ms ++ rest) = ms ++ cut rest

theorem cut_punctuation {c : Char} {kind : Kind} (hc : Ends c)
    (hk : Kind.ofPunctuation c = some kind) (rest : List Char) :
    cut (c :: rest) = ⟨kind, String.ofList [c]⟩ :: cut rest := by
  have hscan : scan c rest = (kind, 0) := by
    have hnone : digraphAt c rest = none := by
      simp only [Ends, List.mem_cons, List.not_mem_nil, or_false] at hc
      rcases hc with rfl | rfl | rfl | rfl <;> cases rest <;> simp [digraphAt, Kind.ofDigraph]
    simp only [scan, hnone, hk]
  rw [cut_cons, hscan, List.take_zero, List.drop_zero]

theorem opening_text (b : Bracket) : ∃ c, Ends c ∧ (opening b).text.toList = [c] ∧
    Kind.ofPunctuation c = some (.opening b) := by
  cases b with
  | round => exact ⟨'(', by decide, rfl, rfl⟩
  | square => exact ⟨'[', by decide, rfl, rfl⟩

theorem closing_text (b : Bracket) : ∃ c, Ends c ∧ (closing b).text.toList = [c] ∧
    Kind.ofPunctuation c = some (.closing b) := by
  cases b with
  | round => exact ⟨')', by decide, rfl, rfl⟩
  | square => exact ⟨']', by decide, rfl, rfl⟩

theorem not_blank_opening {b : Bracket} {c : Char} (hc : c ∈ (opening b).text.toList) :
    Text.isBlank c = false := by
  obtain ⟨d, hd, htext, _⟩ := opening_text b
  rw [htext, List.mem_singleton] at hc
  exact hc ▸ hd.not_blank

theorem not_blank_closing {b : Bracket} {c : Char} (hc : c ∈ (closing b).text.toList) :
    Text.isBlank c = false := by
  obtain ⟨d, hd, htext, _⟩ := closing_text b
  rw [htext, List.mem_singleton] at hc
  exact hc ▸ hd.not_blank

theorem cut_opening (b : Bracket) (rest : List Char) :
    cut ((opening b).text.toList ++ rest) = opening b :: cut rest := by
  obtain ⟨c, hc, htext, hk⟩ := opening_text b
  rw [htext, List.singleton_append, cut_punctuation hc hk, ← htext, String.ofList_toList]
  cases b <;> rfl

theorem cut_closing (b : Bracket) (rest : List Char) :
    cut ((closing b).text.toList ++ rest) = closing b :: cut rest := by
  obtain ⟨c, hc, htext, hk⟩ := closing_text b
  rw [htext, List.singleton_append, cut_punctuation hc hk, ← htext, String.ofList_toList]
  cases b <;> rfl

theorem bracketed_wrap (b : Bracket) {ls : List Lexeme} (h : Lexed ls) :
    Bracketed (opening b :: (ls ++ [closing b])) := by
  refine ⟨?_, ?_⟩
  · obtain ⟨c, hc, htext, _⟩ := opening_text b
    exact ⟨c, chars (ls ++ [closing b]), hc, by rw [chars_cons, htext]; rfl⟩
  · intro rest
    obtain ⟨c, hc, htext, _⟩ := closing_text b
    have hclose := cut_closing b rest
    rw [htext, List.singleton_append] at hclose
    rw [chars_cons, chars_append, chars_cons, chars_nil, htext, List.append_nil,
      List.append_assoc, List.append_assoc, cut_opening, List.singleton_append,
      h.append_bracket hc, hclose]
    simp

def Respells (l : Lexeme) (ms : List Lexeme) : Prop :=
  ms = [l] ∨ ∃ bs, Bracketed bs ∧ (ms = bs ∨ ms = l :: bs)

section Respelling

variable {ls : List Lexeme} {pieces : List (List Lexeme)}

theorem alike_respell (h : List.Forall₂ Respells ls pieces) :
    Alike (chars ls) (chars pieces.flatten) := by
  induction h with
  | nil => exact .inl rfl
  | @cons l ms ls pieces hl _ ih =>
    rw [List.flatten_cons, chars_cons, chars_append]
    rcases hl with rfl | ⟨bs, ⟨⟨b, tail, hb, hbs⟩, _⟩, rfl | rfl⟩
    · rw [chars_cons, chars_nil, List.append_nil]
      exact ih.append _
    · rw [hbs]
      exact .bracket hb [] _ _
    · rw [chars_cons, hbs, List.append_assoc]
      exact .bracket hb _ _ _

theorem Lexed.respell (h : Lexed ls) (hp : List.Forall₂ Respells ls pieces) :
    Lexed pieces.flatten := by
  induction hp with
  | nil => exact h
  | @cons l ms ls pieces hl hls ih =>
    obtain ⟨hlexed, hcut⟩ := h.cons_inv
    have hrest : cut (chars pieces.flatten) = pieces.flatten := ih hlexed
    rw [Lexed, List.flatten_cons, chars_append]
    rcases hl with rfl | ⟨bs, ⟨⟨b, tail, hb, hbs⟩, hclosed⟩, rfl | rfl⟩
    · rw [chars_cons, chars_nil, List.append_nil, cut_append_alike hcut (alike_respell hls),
        hrest, List.singleton_append]
    · rw [hclosed, hrest]
    · have halike : Alike (chars ls) (chars bs ++ chars pieces.flatten) := by
        rw [hbs]
        exact .bracket hb [] _ _
      rw [chars_cons, List.append_assoc, cut_append_alike hcut halike, hclosed, hrest,
        List.cons_append]

end Respelling

def Respelled (ls ms : List Lexeme) : Prop :=
  ∃ pieces, List.Forall₂ Respells ls pieces ∧ pieces.flatten = ms

namespace Respelled

variable {as bs ls ms : List Lexeme}

theorem refl (ls : List Lexeme) : Respelled ls ls := by
  induction ls with
  | nil => exact ⟨[], .nil, rfl⟩
  | cons l ls ih =>
    obtain ⟨pieces, hpieces, hflat⟩ := ih
    exact ⟨[l] :: pieces, .cons (.inl rfl) hpieces, by rw [List.flatten_cons, hflat]; rfl⟩

theorem append (h : Respelled as bs) (h' : Respelled ls ms) :
    Respelled (as ++ ls) (bs ++ ms) := by
  obtain ⟨pieces, hpieces, rfl⟩ := h
  obtain ⟨others, hothers, rfl⟩ := h'
  exact ⟨pieces ++ others, List.rel_append hpieces hothers, List.flatten_append⟩

theorem cons (l : Lexeme) (h : Respelled ls ms) : Respelled (l :: ls) (l :: ms) :=
  (refl [l]).append h

theorem flatMap {f : Lexeme → List Lexeme} (hf : ∀ l, Respells l (f l)) (ls : List Lexeme) :
    Respelled ls (ls.flatMap f) := by
  refine ⟨ls.map f, ?_, List.flatMap_def.symm⟩
  exact List.forall₂_map_right_iff.2 (List.forall₂_same.2 fun l _ => hf l)

theorem lexed (h : Respelled ls ms) (hls : Lexed ls) : Lexed ms := by
  obtain ⟨pieces, hpieces, rfl⟩ := h
  exact hls.respell hpieces

end Respelled

theorem chars_ofSource (source : String) :
    chars (ofSource source) = (Text.stripBlanks source).toList :=
  flatMap_text_cut _

theorem join_ofSource (source : String) :
    String.join ((ofSource source).map text) = Text.stripBlanks source := by
  apply String.toList_inj.1
  rw [toList_join, chars_ofSource]

theorem lexed_ofSource (source : String) : Lexed (ofSource source) := lexed_cut _

theorem not_blank_of_mem_ofSource {source : String} {c : Char} (h : c ∈ chars (ofSource source)) :
    Text.isBlank c = false := by
  rw [chars_ofSource, Text.toList_stripBlanks] at h
  simpa using (List.mem_filter.1 h).2

theorem Lexed.ofSource_join {ls : List Lexeme} (h : Lexed ls)
    (hblank : ∀ c ∈ chars ls, Text.isBlank c = false) :
    ofSource (String.join (ls.map text)) = ls := by
  have hstrip : (Text.stripBlanks (String.join (ls.map text))).toList = chars ls := by
    rw [Text.toList_stripBlanks, toList_join, List.filter_eq_self]
    intro c hc
    rw [hblank c hc]
    rfl
  rw [ofSource, hstrip]
  exact h

end EventCuts.Lexeme

namespace EventCuts

variable {C : Type} {schema : Schema C} {level : Level} {t : Term}

theorem Derives.text_eq {source : String} (h : Derives schema level t (Lexeme.ofSource source)) :
    t.text = Text.stripBlanks source := by
  rw [← Term.join_lexemes, ← h.lexemes_eq, Lexeme.join_ofSource]

end EventCuts
