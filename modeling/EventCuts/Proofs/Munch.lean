import EventCuts.Proofs.Bytes
import EventCuts.Proofs.Names

/-!
# Maximal munch

Which lexeme a text starts with, apart from how it is scanned: rules in order of priority, and of
the first rule with a lexeme at the front of the text the longest one. The lexemes of a text are
the only ones that the rules choose one behind the other, and each is chosen for its own text too.
-/

namespace EventCuts.Lexeme

def digraphs : List Lexeme :=
  [BinaryOp.lessEqual.lexeme, BinaryOp.greaterEqual.lexeme, BinaryOp.notEqual.lexeme,
    BinaryOp.equal.lexeme, BinaryOp.and.lexeme, BinaryOp.or.lexeme]

def marks : List Lexeme :=
  [opening .round, closing .round, opening .square, closing .square, PrefixOp.plus.lexeme,
    PrefixOp.minus.lexeme, BinaryOp.mul.lexeme, BinaryOp.div.lexeme, BinaryOp.rem.lexeme,
    BinaryOp.less.lexeme, BinaryOp.greater.lexeme, PrefixOp.not.lexeme]

def Named (l : Lexeme) : Prop := l.kind = .identifier ∧ IsName l.text

def Numeric (l : Lexeme) : Prop :=
  l.kind = .number ∧ Literal.IsLiteral l.text.toList ∧
    ∃ c ∈ l.text.toList.head?, (Literal.isDigit c || c == '.') = true

def rules : List (Lexeme → Prop) := [(· ∈ digraphs), (· ∈ marks), Named, Numeric]

def Fronts (l : Lexeme) (input : List Char) : Prop := l.text.toList <+: input

/-- The longest lexeme that the rule has at the front of the text. -/
structure Munches (rule : Lexeme → Prop) (input : List Char) (l : Lexeme) : Prop where
  allowed : rule l
  fronts : l.Fronts input
  longest : ∀ m, rule m → m.Fronts input → m.text.toList.length ≤ l.text.toList.length

/-- The first rule that has a lexeme at the front decides, and without any the first character is
a lexeme of its own. -/
def Chosen : List (Lexeme → Prop) → List Char → Lexeme → Prop
  | [], input, l => ∃ c rest, input = c :: rest ∧ l = ⟨.unknown, String.ofList [c]⟩
  | rule :: others, input, l =>
    Munches rule input l ∨ (∀ m, rule m → ¬ m.Fronts input) ∧ Chosen others input l

/-- The lexemes are chosen one behind the other, each at the front of what is left. -/
inductive Munched : List Char → List Lexeme → Prop
  | nil : Munched [] []
  | cons {l : Lexeme} {rest : List Char} {ls : List Lexeme} :
      Chosen rules (l.text.toList ++ rest) l → Munched rest ls →
      Munched (l.text.toList ++ rest) (l :: ls)

section Choice

variable {rule : Lexeme → Prop} {others : List (Lexeme → Prop)} {input : List Char} {l m : Lexeme}

theorem Chosen.fronts (h : Chosen others input l) : l.Fronts input := by
  induction others with
  | nil =>
    obtain ⟨c, rest, rfl, rfl⟩ := h
    exact ⟨rest, by rw [String.toList_ofList]; rfl⟩
  | cons rule others ih =>
    rcases h with h | ⟨_, h⟩
    · exact h.fronts
    · exact ih h

theorem Chosen.of_prefix {front : List Char} (h : Chosen others input l) (hfront : front <+: input)
    (hl : l.Fronts front) : Chosen others front l := by
  induction others with
  | nil =>
    obtain ⟨c, rest, rfl, rfl⟩ := h
    obtain ⟨back, rfl⟩ := hl
    rw [String.toList_ofList, List.singleton_append]
    exact ⟨c, back, rfl, rfl⟩
  | cons rule others ih =>
    rcases h with h | ⟨hnone, h⟩
    · exact .inl ⟨h.allowed, hl, fun m hm hmf => h.longest m hm (hmf.trans hfront)⟩
    · exact .inr ⟨fun m hm hmf => hnone m hm (hmf.trans hfront), ih h⟩

theorem Munches.text_eq (hl : Munches rule input l) (hm : Munches rule input m) :
    l.text = m.text := by
  have hlength : l.text.toList.length = m.text.toList.length :=
    Nat.le_antisymm (hm.longest l hl.allowed hl.fronts) (hl.longest m hm.allowed hm.fronts)
  have hfront := List.prefix_of_prefix_length_le hl.fronts hm.fronts (Nat.le_of_eq hlength)
  exact String.toList_inj.1 (hfront.eq_of_length hlength)

def Settles (rule : Lexeme → Prop) : Prop := ∀ l m, rule l → rule m → l.text = m.text → l = m

theorem settles_of_kind {P : Lexeme → Prop} {kind : Kind} (h : ∀ l, P l → l.kind = kind) :
    Settles P := by
  rintro ⟨a, text⟩ ⟨b, other⟩ hl hm rfl
  have hkind : a = b := (h _ hl).trans (h _ hm).symm
  rw [hkind]

theorem settles_rules : ∀ rule ∈ rules, Settles rule := by
  have hdigraphs : ∀ l ∈ digraphs, ∀ m ∈ digraphs, l.text = m.text → l = m := by decide
  have hmarks : ∀ l ∈ marks, ∀ m ∈ marks, l.text = m.text → l = m := by decide
  simp only [rules, List.forall_mem_cons]
  refine ⟨fun l m hl hm => hdigraphs l hl m hm, fun l m hl hm => hmarks l hl m hm, ?_, ?_, nofun⟩
  · exact settles_of_kind fun l hl => hl.1
  · exact settles_of_kind fun l hl => hl.1

theorem ne_nil_of_rules : ∀ rule ∈ rules, ∀ l : Lexeme, rule l → l.text.toList ≠ [] := by
  have hdigraphs : ∀ l ∈ digraphs, l.text.toList ≠ [] := by decide
  have hmarks : ∀ l ∈ marks, l.text.toList ≠ [] := by decide
  simp only [rules, List.forall_mem_cons]
  refine ⟨hdigraphs, hmarks, ?_, ?_, nofun⟩
  · rintro l ⟨_, c, rest, htext, _⟩ hnil
    rw [htext] at hnil
    cases hnil
  · rintro l ⟨_, _, c, hc, _⟩ hnil
    rw [hnil] at hc
    cases hc

theorem Chosen.ne_nil (h : ∀ rule ∈ others, ∀ l : Lexeme, rule l → l.text.toList ≠ [])
    (hl : Chosen others input l) : l.text.toList ≠ [] := by
  induction others with
  | nil =>
    obtain ⟨c, rest, rfl, rfl⟩ := hl
    rw [String.toList_ofList]
    exact List.cons_ne_nil c []
  | cons rule others ih =>
    obtain ⟨hrule, hothers⟩ := List.forall_mem_cons.1 h
    rcases hl with hl | ⟨_, hl⟩
    · exact hrule l hl.allowed
    · exact ih hothers hl

theorem Chosen.unique (h : ∀ rule ∈ others, Settles rule) (hl : Chosen others input l)
    (hm : Chosen others input m) : l = m := by
  induction others with
  | nil =>
    obtain ⟨c, rest, rfl, rfl⟩ := hl
    obtain ⟨_, _, heq, rfl⟩ := hm
    cases heq
    rfl
  | cons rule others ih =>
    obtain ⟨hrule, hothers⟩ := List.forall_mem_cons.1 h
    rcases hl with hl | ⟨hnone, hl⟩
    · rcases hm with hm | ⟨hnone, _⟩
      · exact hrule l m hl.allowed hm.allowed (hl.text_eq hm)
      · exact absurd hl.fronts (hnone l hl.allowed)
    · rcases hm with hm | ⟨_, hm⟩
      · exact absurd hm.fronts (hnone m hm.allowed)
      · exact ih hothers hl hm

end Choice

section Scanning

variable {c : Char} {rest : List Char} {m : Lexeme}

theorem digraphAt_of_fronts (hm : m ∈ digraphs) (h : m.Fronts (c :: rest)) :
    digraphAt c rest = some m.kind := by
  obtain ⟨back, hback⟩ := h
  simp only [digraphs, List.mem_cons, List.not_mem_nil, or_false] at hm
  rcases hm with rfl | rfl | rfl | rfl | rfl | rfl <;> cases hback <;> rfl

theorem ofPunctuation_of_fronts (hm : m ∈ marks) (h : m.Fronts (c :: rest)) :
    Kind.ofPunctuation c = some m.kind := by
  obtain ⟨back, hback⟩ := h
  simp only [marks, List.mem_cons, List.not_mem_nil, or_false] at hm
  rcases hm with rfl | rfl | rfl | rfl | rfl | rfl | rfl | rfl | rfl | rfl | rfl | rfl <;>
    cases hback <;> rfl

theorem mem_digraphs {d : Char} {kind : Kind} (h : Kind.ofDigraph c d = some kind) :
    ⟨kind, String.ofList [c, d]⟩ ∈ digraphs := by
  simp only [Kind.ofDigraph] at h
  split at h <;> cases h <;> decide

theorem mem_marks {kind : Kind} (h : Kind.ofPunctuation c = some kind) :
    ⟨kind, String.ofList [c]⟩ ∈ marks := by
  simp only [Kind.ofPunctuation] at h
  split at h <;> cases h <;> decide

theorem munches_digraph {kind : Kind} (h : digraphAt c rest = some kind) :
    Munches (· ∈ digraphs) (c :: rest) ⟨kind, String.ofList (c :: rest.take 1)⟩ := by
  have htwo : ∀ d ∈ digraphs, d.text.toList.length = 2 := by decide
  cases rest with
  | nil => cases h
  | cons d rest =>
    rw [List.take_succ_cons, List.take_zero]
    refine ⟨mem_digraphs h, ?_, fun m hm _ => ?_⟩
    · rw [Fronts, String.toList_ofList]
      exact ⟨rest, rfl⟩
    · rw [htwo m hm, String.toList_ofList]
      rfl

theorem munches_mark {kind : Kind} (h : Kind.ofPunctuation c = some kind) :
    Munches (· ∈ marks) (c :: rest) ⟨kind, String.ofList (c :: rest.take 0)⟩ := by
  have hone : ∀ d ∈ marks, d.text.toList.length = 1 := by decide
  rw [List.take_zero]
  refine ⟨mem_marks h, ?_, fun m hm _ => ?_⟩
  · rw [Fronts, String.toList_ofList]
    exact ⟨rest, rfl⟩
  · rw [hone m hm, String.toList_ofList]
    rfl

theorem named_of_fronts (hm : Named m) (h : m.Fronts (c :: rest)) :
    isNameStart c = true ∧ m.text.toList.length ≤ Literal.run isNameChar rest + 1 := by
  obtain ⟨_, d, ds, htext, hd, hds⟩ := hm
  rw [Fronts, htext, List.cons_prefix_cons] at h
  obtain ⟨rfl, hfront⟩ := h
  refine ⟨hd, ?_⟩
  rw [htext]
  exact Nat.succ_le_succ (Literal.le_run hds hfront)

theorem munches_name (h : isNameStart c = true) :
    Munches Named (c :: rest)
      ⟨.identifier, String.ofList (c :: rest.take (Literal.run isNameChar rest))⟩ := by
  have htake := Bytes.take_run isNameChar rest
  refine ⟨⟨rfl, c, _, String.toList_ofList, h, ?_⟩, ?_, fun m hm hfront => ?_⟩
  · rw [htake]
    exact fun d hd => List.all_eq_true.1 List.all_takeWhile d hd
  · rw [Fronts, String.toList_ofList]
    exact List.cons_prefix_cons.2 ⟨rfl, List.take_prefix _ _⟩
  · rw [String.toList_ofList, List.length_cons, htake]
    exact (named_of_fronts hm hfront).2

theorem numeric_of_fronts (hm : Numeric m) (h : m.Fronts (c :: rest)) :
    0 < Literal.length (c :: rest) ∧ m.text.toList.length ≤ Literal.length (c :: rest) := by
  obtain ⟨_, hliteral, d, hd, _⟩ := hm
  have hle := (Literal.length_longest _).2 _ hliteral h
  have hpos : 0 < m.text.toList.length := by
    cases htext : m.text.toList with
    | nil =>
      rw [htext] at hd
      cases hd
    | cons d ds => exact Nat.succ_pos _
  exact ⟨Nat.lt_of_lt_of_le hpos hle, hle⟩

theorem munches_literal {n : Nat} (h : Literal.length (c :: rest) = n + 1) :
    Munches Numeric (c :: rest) ⟨.number, String.ofList (c :: rest.take n)⟩ := by
  obtain ⟨⟨p, hliteral, hfront, hlength⟩, _⟩ :=
    (Literal.length_longest (c :: rest)).1 (h ▸ Nat.succ_pos n)
  have hp : p = c :: rest.take n := by
    rw [List.prefix_iff_eq_take.1 hfront, hlength, h, List.take_succ_cons]
  subst hp
  refine ⟨⟨rfl, ?_, c, ?_, ?_⟩, ?_, fun m hm hm' => ?_⟩
  · rw [String.toList_ofList]
    exact hliteral
  · rw [String.toList_ofList]
    rfl
  · apply Classical.byContradiction
    intro hgate
    rw [Bytes.length_literal_eq_zero hgate] at h
    cases h
  · rw [Fronts, String.toList_ofList]
    exact hfront
  · rw [String.toList_ofList, hlength]
    exact (numeric_of_fronts hm hm').2

theorem chosen_scan (c : Char) (rest : List Char) :
    Chosen rules (c :: rest) ⟨(scan c rest).1, String.ofList (c :: rest.take (scan c rest).2)⟩ := by
  -- The scan tries the rules in their order, and each try settles one of them.
  unfold scan
  split
  · next kind hk => exact .inl (munches_digraph hk)
  · next hnone =>
    refine .inr ⟨fun m hm h => ?_, ?_⟩
    · rw [digraphAt_of_fronts hm h] at hnone
      cases hnone
    split
    · next kind hk => exact .inl (munches_mark hk)
    · next hnone =>
      refine .inr ⟨fun m hm h => ?_, ?_⟩
      · rw [ofPunctuation_of_fronts hm h] at hnone
        cases hnone
      split
      · next hname => exact .inl (munches_name hname)
      · next hname =>
        refine .inr ⟨fun m hm h => hname (named_of_fronts hm h).1, ?_⟩
        split
        · next n hn => exact .inl (munches_literal hn)
        · next hzero =>
          refine .inr ⟨fun m hm h => ?_, c, rest, rfl, rfl⟩
          have hpos := (numeric_of_fronts hm h).1
          rw [hzero] at hpos
          exact Nat.lt_irrefl 0 hpos

end Scanning

theorem munched_cut (input : List Char) : Munched input (cut input) := by
  induction hn : input.length using Nat.strongRecOn generalizing input with
  | ind n ih =>
    subst hn
    cases input with
    | nil =>
      rw [cut]
      exact .nil
    | cons c rest =>
      have hshorter : (rest.drop (scan c rest).2).length < (c :: rest).length := by
        simp only [List.length_drop, List.length_cons]
        omega
      obtain ⟨l, hl⟩ : ∃ l : Lexeme,
          l = ⟨(scan c rest).1, String.ofList (c :: rest.take (scan c rest).2)⟩ := ⟨_, rfl⟩
      have hchosen : Chosen rules (c :: rest) l := hl ▸ chosen_scan c rest
      have hsplit : c :: rest = l.text.toList ++ rest.drop (scan c rest).2 := by
        rw [hl, String.toList_ofList, List.cons_append, List.take_append_drop]
      rw [cut_cons, ← hl, hsplit]
      rw [hsplit] at hchosen
      exact .cons hchosen (ih _ hshorter _ rfl)

theorem Munched.cut_eq {input : List Char} {ls : List Lexeme} (h : Munched input ls) :
    cut input = ls := by
  induction h with
  | nil => rw [cut]
  | @cons l rest ls hl _ ih =>
    obtain ⟨c, p, htext⟩ := List.exists_cons_of_ne_nil (hl.ne_nil ne_nil_of_rules)
    rw [htext, List.cons_append] at hl ⊢
    have hscan := hl.unique settles_rules (chosen_scan c (p ++ rest))
    have htake : (p ++ rest).take (scan c (p ++ rest)).2 = p := by
      rw [hscan, String.toList_ofList] at htext
      exact (List.cons.inj htext).2
    have hdrop : (p ++ rest).drop (scan c (p ++ rest)).2 = rest := by
      have hsplit := List.take_append_drop (scan c (p ++ rest)).2 (p ++ rest)
      rw [htake] at hsplit
      exact List.append_cancel_left hsplit
    rw [cut_cons, ← hscan, hdrop, ih]

theorem Munched.chosen {input : List Char} {ls : List Lexeme} (h : Munched input ls) {l : Lexeme}
    (hl : l ∈ ls) : ∃ text, Chosen rules text l := by
  induction h with
  | nil => cases hl
  | cons hchosen _ ih =>
    rcases List.mem_cons.1 hl with rfl | hl
    · exact ⟨_, hchosen⟩
    · exact ih hl

theorem cut_text {input : List Char} {l : Lexeme} (h : l ∈ cut input) :
    cut l.text.toList = [l] := by
  obtain ⟨text, hl⟩ := (munched_cut input).chosen h
  have hchosen : Chosen rules (l.text.toList ++ []) l := by
    rw [List.append_nil]
    exact hl.of_prefix hl.fronts List.prefix_rfl
  have hcut := (Munched.cons hchosen .nil).cut_eq
  rwa [List.append_nil] at hcut

/-! The lexemes of a text, rule by rule. -/

inductive Ruled (l : Lexeme) : Prop
  | digraph : l ∈ digraphs → Ruled l
  | mark : l ∈ marks → Ruled l
  | named : Named l → Ruled l
  | numeric : Numeric l → Ruled l

theorem ruled_of_rules : ∀ rule ∈ rules, ∀ l, rule l → Ruled l := by
  simp only [rules, List.forall_mem_cons]
  exact ⟨fun _ => .digraph, fun _ => .mark, fun _ => .named, fun _ => .numeric,
    fun _ h => absurd h List.not_mem_nil⟩

theorem Chosen.ruled {others : List (Lexeme → Prop)} {input : List Char} {l : Lexeme}
    (h : Chosen others input l) : (∃ rule ∈ others, rule l) ∨ l.kind = .unknown := by
  induction others with
  | nil =>
    rcases h with ⟨c, rest, _, rfl⟩
    exact .inr rfl
  | cons rule others ih =>
    rcases h with h | ⟨_, h⟩
    · exact .inl ⟨rule, List.mem_cons_self, h.allowed⟩
    · rcases ih h with ⟨other, hother, hl⟩ | hunknown
      · exact .inl ⟨other, List.mem_cons_of_mem _ hother, hl⟩
      · exact .inr hunknown

theorem ruled_of_mem_cut {text : List Char} {l : Lexeme} (h : l ∈ cut text)
    (hknown : l.kind ≠ .unknown) : l.Ruled := by
  rcases (munched_cut text).chosen h with ⟨input, hchosen⟩
  rcases hchosen.ruled.resolve_right hknown with ⟨rule, hrule, hl⟩
  exact ruled_of_rules rule hrule l hl

theorem Named.isNameChar {l : Lexeme} (h : Named l) :
    ∀ c ∈ l.text.toList, isNameChar c = true := by
  rcases h with ⟨_, c, rest, htext, hc, hrest⟩
  rw [htext]
  exact List.forall_mem_cons.2 ⟨isNameChar_of_isNameStart hc, hrest⟩

theorem Numeric.uses {l : Lexeme} (h : Numeric l) :
    ∀ c ∈ l.text.toList, Literal.uses c = true :=
  h.2.1.uses

/-- Cutting partitions a text, by its characters and by offsets into its bytes alike. Its lexemes
are the only ones that the rules choose, and each of them is cut from its own text again. -/
theorem cut_partitions (C : Type) (source : String) :
    let ls := cut source.toList
    Bytes.lexFrom source.toList 0 = .ok ls ∧
      (∀ ms, Munched source.toList ms ↔ ms = ls) ∧
      String.join (ls.map text) = source ∧
      (∀ l ∈ ls, l.text ≠ "" ∧ cut l.text.toList = [l]) ∧
      String.join ((tokenize C source).map Token.text) = Text.stripBlanks source ∧
      ∀ t ∈ tokenize C source, tokenize C t.text = [t] := by
  intro ls
  refine ⟨Bytes.lexFrom_zero _, fun ms => ?_, ?_, fun l hl => ⟨?_, cut_text hl⟩, ?_, ?_⟩
  · constructor
    · exact fun h => h.cut_eq.symm
    · rintro rfl
      exact munched_cut _
  · apply String.toList_inj.1
    rw [toList_join]
    exact flatMap_text_cut _
  · rintro hempty
    exact cut_ne_empty hl (by rw [hempty]; rfl)
  · apply String.toList_inj.1
    rw [tokenize, List.map_map]
    exact (toList_join _).trans (chars_ofSource source)
  · intro t ht
    obtain ⟨l, hl, rfl⟩ := List.mem_map.1 ht
    have hstrip : (Text.stripBlanks l.text).toList = l.text.toList := by
      rw [Text.toList_stripBlanks, List.filter_eq_self]
      intro c hc
      rw [not_blank_of_mem_ofSource (List.mem_flatMap.2 ⟨l, hl, hc⟩)]
      rfl
    have hcut : ofSource l.text = [l] := by
      rw [ofSource, hstrip]
      exact cut_text hl
    exact congrArg (List.map Token.ofLexeme) hcut

example : (cut "a!!=0xg*2e+".toList).map text =
    ["a", "!", "!=", "0", "xg", "*", "2", "e", "+"] := by
  decide +kernel

end EventCuts.Lexeme
