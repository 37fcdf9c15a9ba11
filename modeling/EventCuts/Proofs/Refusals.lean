import EventCuts.Proofs.Acceptance
import EventCuts.Proofs.Guards

/-!
# Why a text is refused

A lexeme that is unknown is refused before anything else, then one that has no meaning, and of
several the first one; the error says where it stands, in bytes of the whole text. Whatever else
goes wrong is that something does not reduce to one value.
-/

namespace EventCuts

variable {C : Type} {schema : Schema C}

/-- The span lies between characters of the text, and cuts the piece out of it. -/
def Span.Cuts (span : Span) (text piece : String) : Prop :=
  Bytes.slice text.toList span.offset (span.offset + span.length) = .ok piece.toList

namespace Lexeme

/-- The first lexeme with a property, and the lexemes in front of it. -/
structure First (P : Lexeme → Prop) (ls front : List Lexeme) (l : Lexeme) : Prop where
  split : ∃ back, ls = front ++ l :: back
  holds : P l
  before : ∀ m ∈ front, ¬ P m

theorem exists_first {P : Lexeme → Prop} {ls : List Lexeme} (h : ∃ l ∈ ls, P l) :
    ∃ front l, First P ls front l := by
  induction ls with
  | nil =>
    obtain ⟨_, hl, _⟩ := h
    cases hl
  | cons m ls ih =>
    by_cases hm : P m
    · exact ⟨[], m, ⟨ls, rfl⟩, hm, nofun⟩
    · have hrest : ∃ l ∈ ls, P l := by
        obtain ⟨l, hl, hP⟩ := h
        obtain rfl | hl := List.mem_cons.1 hl
        · exact absurd hP hm
        · exact ⟨l, hl, hP⟩
      obtain ⟨front, l, ⟨back, rfl⟩, hP, hfront⟩ := ih hrest
      exact ⟨m :: front, l, ⟨back, rfl⟩, hP, List.forall_mem_cons.2 ⟨hm, hfront⟩⟩

def span (front : List Lexeme) (l : Lexeme) : Span :=
  ⟨Bytes.size (chars front), Bytes.size l.text.toList⟩

theorem cuts_span (front back : List Lexeme) (l : Lexeme) {source : String}
    (h : ofSource source = front ++ l :: back) :
    (span front l).Cuts (Text.stripBlanks source) l.text := by
  rw [Span.Cuts, ← chars_ofSource, h, chars_append, chars_cons]
  exact Bytes.slice_append _ _ _

end Lexeme

theorem utf8ByteSize_eq (text : String) : text.utf8ByteSize = Bytes.size text.toList := by
  rw [Bytes.size, String.ofList_toList]

theorem firstUnknown_append {front back : List Lexeme} {l : Lexeme} (hl : l.kind = .unknown)
    (hfront : ∀ m ∈ front, m.kind ≠ .unknown) (offset : Nat) :
    firstUnknown offset ((front ++ l :: back).map (Token.ofLexeme (C := C))) =
      some (l.text, ⟨offset + Bytes.size (Lexeme.chars front), Bytes.size l.text.toList⟩) := by
  induction front generalizing offset with
  | nil => simp [firstUnknown, Token.ofLexeme, hl, utf8ByteSize_eq]
  | cons m front ih =>
    obtain ⟨hm, hfront⟩ := List.forall_mem_cons.1 hfront
    have hknown : (Token.ofLexeme m : Token C).kind ≠ .unknown := hm
    have htext : (Token.ofLexeme m : Token C).text = m.text := rfl
    rw [List.cons_append, List.map_cons, firstUnknown]
    simp only [if_neg hknown]
    rw [ih hfront, htext, utf8ByteSize_eq, Nat.add_assoc, ← Bytes.size_append]
    rfl

/-- Why a leaf has no meaning. -/
def Lexeme.refusal (l : Lexeme) (span : Span) (source : String) : ParseError :=
  match l.kind with
  | .identifier => .unknownVariable l.text span source
  | _ => .invalidNumber l.text span source

theorem resolveLeaf_refusal {l : Lexeme} (hl : leaf? schema l = none) (source : String)
    (offset : Nat) :
    resolveLeaf schema source offset (Token.ofLexeme l) =
      .error (l.refusal ⟨offset, Bytes.size l.text.toList⟩ source) := by
  obtain ⟨kind, text⟩ := l
  cases kind with
  | identifier =>
    simp only [leaf?, Option.map_eq_none_iff] at hl
    simp [resolveLeaf, Token.ofLexeme, hl, Lexeme.refusal, utf8ByteSize_eq]
  | number =>
    simp only [leaf?, Option.map_eq_none_iff] at hl
    simp [resolveLeaf, Token.ofLexeme, hl, Lexeme.refusal, utf8ByteSize_eq]
  | _ => cases hl

theorem resolveLeavesFrom_append {front back : List Lexeme} {l : Lexeme}
    (hl : leaf? schema l = none) (hfront : ∀ m ∈ front, (leaf? schema m).isSome)
    (source : String) (offset : Nat) :
    resolveLeavesFrom schema source offset ((front ++ l :: back).map Token.ofLexeme) =
      .error (l.refusal ⟨offset + Bytes.size (Lexeme.chars front), Bytes.size l.text.toList⟩
        source) := by
  induction front generalizing offset with
  | nil =>
    simp only [List.nil_append, List.map_cons, resolveLeavesFrom, resolveLeaf_refusal hl]
    rfl
  | cons m front ih =>
    obtain ⟨hm, hfront⟩ := List.forall_mem_cons.1 hfront
    obtain ⟨t, ht⟩ := Option.isSome_iff_exists.1 hm
    have hleaf := (resolveLeaf_ok_iff schema source offset m t).2 ht
    have htext : (Token.ofLexeme m : Token C).text = m.text := rfl
    rw [List.cons_append, List.map_cons, resolveLeavesFrom, hleaf, ih hfront, htext,
      utf8ByteSize_eq, Nat.add_assoc, ← Bytes.size_append]
    rfl

def ParseError.Unresolved (e : ParseError) : Prop :=
  ∃ remaining span source, e = .unresolved remaining span source

theorem unresolved_of_condense {source : String} {tokens : List (Token C)} {e : ParseError}
    (h : (condense source tokens).result = .error e) : e.Unresolved := by
  simp only [condense, Logged.result_bind, Logged.tell, Logged.ofExcept, Logged.pure_eq,
    Guarded.ok_bind] at h
  obtain h | ⟨_, _, h⟩ := bind_eq_error h
  · unfold checkSolved at h
    split at h
    · split at h
      · cases h
      · cases h
        exact ⟨_, _, _, rfl⟩
    · cases h
      exact ⟨_, _, _, rfl⟩
  · cases h

theorem unresolved_of_compileGroups {tokens : List (Token C)} {e : ParseError}
    (h : (compileGroups tokens).result = .error e) : e.Unresolved := by
  induction tokens using groups_induction with
  | nil =>
    rw [compileGroups_nil_result] at h
    cases h
  | group t rest n hn ihinside ihbehind =>
    rw [compileGroups_group hn] at h
    obtain h | ⟨_, _, h⟩ := bind_eq_error h
    · exact ihinside h
    · obtain h | ⟨_, _, h⟩ := bind_eq_error h
      · exact unresolved_of_condense h
      · obtain h | ⟨_, _, h⟩ := bind_eq_error h
        · exact ihbehind h
        · cases h
  | single t rest hn ih =>
    rw [compileGroups_single hn] at h
    obtain h | ⟨_, _, h⟩ := bind_eq_error h
    · exact ih h
    · cases h

theorem unresolved_of_groupValue {inner : List (Token C)} {e : ParseError}
    (h : groupValue inner = .error e) : e.Unresolved := by
  obtain h | ⟨_, _, h⟩ := bind_eq_error h
  · exact unresolved_of_compileGroups h
  · exact unresolved_of_condense h

theorem parse_of_unknown {source : String} {front back : List Lexeme} {l : Lexeme}
    (h : Lexeme.ofSource source = front ++ l :: back) (hl : l.kind = .unknown)
    (hfront : ∀ m ∈ front, m.kind ≠ .unknown) :
    parse schema source =
      .error (.unknownToken l.text (Lexeme.span front l) (Text.stripBlanks source)) := by
  simp only [parse, compile, compileTokens, Logged.result_bind, Logged.tell, Logged.ofExcept,
    tokenize_stripBlanks, checkUnknown, h, firstUnknown_append hl hfront, Nat.zero_add,
    Guarded.ok_bind]
  rfl

theorem parse_of_leaf {source : String} {front back : List Lexeme} {l : Lexeme}
    (h : Lexeme.ofSource source = front ++ l :: back)
    (hknown : ∀ l ∈ Lexeme.ofSource source, l.kind ≠ .unknown) (hl : leaf? schema l = none)
    (hfront : ∀ m ∈ front, (leaf? schema m).isSome) :
    parse schema source =
      .error (l.refusal (Lexeme.span front l) (Text.stripBlanks source)) := by
  have hcheck := (checkUnknown_ok_iff (C := C) (Text.stripBlanks source)
    ((Lexeme.ofSource source).map Token.ofLexeme) ()).2 (List.forall_mem_map.2 hknown)
  simp only [parse, compile, compileTokens, Logged.result_bind, Logged.tell, Logged.ofExcept,
    tokenize_stripBlanks, hcheck, Guarded.ok_bind]
  simp only [h, resolveLeaves, resolveLeavesFrom_append hl hfront, Nat.zero_add]
  rfl

theorem leaves_of_meaningful {source : String}
    (h : ∀ l ∈ Lexeme.ofSource source, l.Meaningful schema) :
    ∃ leaves, resolveLeaves schema (Text.stripBlanks source)
        (tokenize C (Text.stripBlanks source)) = .ok leaves ∧ ∀ t ∈ leaves, t.Settled := by
  rw [tokenize_stripBlanks]
  have hleaf : ∀ l ∈ Lexeme.ofSource source, (leaf? schema l).isSome :=
    fun l hl => (leaf?_isSome_iff schema l).2 (h l hl).2
  obtain ⟨leaves, hleaves⟩ := exists_leaves hleaf (Text.stripBlanks source) 0
  have hknown : ∀ t ∈ (Lexeme.ofSource source).map (Token.ofLexeme (C := C)), t.kind ≠ .unknown :=
    List.forall_mem_map.2 fun l hl => (h l hl).1
  exact ⟨leaves, hleaves, settled_resolveLeaves hknown hleaves⟩

theorem unresolved_of_parse {source : String} {e : ParseError}
    (h : ∀ l ∈ Lexeme.ofSource source, l.Meaningful schema) (he : parse schema source = .error e) :
    e.Unresolved := by
  obtain ⟨leaves, hleaves, _⟩ := leaves_of_meaningful h
  have hcheck := (checkUnknown_ok_iff (C := C) (Text.stripBlanks source)
    (tokenize C (Text.stripBlanks source)) ()).2
    (tokenize_stripBlanks (C := C) source ▸ List.forall_mem_map.2 fun l hl => (h l hl).1)
  simp only [parse, compile, compileTokens, Logged.result_bind, Logged.tell, Logged.ofExcept,
    hcheck, hleaves, Guarded.ok_bind] at he
  obtain he | ⟨t, _, he⟩ := bind_eq_error he
  · obtain he | ⟨groups, _, he⟩ := bind_eq_error he
    · exact unresolved_of_compileGroups he
    · exact unresolved_of_condense he
  · unfold tokenValue at he
    split at he
    · cases he
    · cases he
      exact ⟨_, _, _, rfl⟩

/-- An unknown lexeme is refused first, then a leaf without a meaning, and of several the leftmost,
at its place in the whole text. All else is refused as unresolved, also in the insides of groups,
though they are checked once more like whole texts. -/
theorem parse_refuses_first (schema : Schema C) (source : String) :
    ((∃ l ∈ Lexeme.ofSource source, l.kind = .unknown) →
      ∃ front l, Lexeme.First (fun l => l.kind = .unknown) (Lexeme.ofSource source) front l ∧
        parse schema source =
          .error (.unknownToken l.text (Lexeme.span front l) (Text.stripBlanks source)) ∧
        (Lexeme.span front l).Cuts (Text.stripBlanks source) l.text) ∧
    ((∀ l ∈ Lexeme.ofSource source, l.kind ≠ .unknown) →
      (∃ l ∈ Lexeme.ofSource source, ¬ l.Meaningful schema) →
      ∃ front l, Lexeme.First (fun l => ¬ l.Meaningful schema) (Lexeme.ofSource source) front l ∧
        (l.kind = .identifier ∧ schema l.text = none ∧ parse schema source =
            .error (.unknownVariable l.text (Lexeme.span front l) (Text.stripBlanks source)) ∨
          l.kind = .number ∧ readNumber l.text = none ∧ parse schema source =
            .error (.invalidNumber l.text (Lexeme.span front l) (Text.stripBlanks source))) ∧
        (Lexeme.span front l).Cuts (Text.stripBlanks source) l.text) ∧
    ((∀ l ∈ Lexeme.ofSource source, l.Meaningful schema) →
      (∀ e, parse schema source = .error e → e.Unresolved) ∧
      ∃ leaves, resolveLeaves schema (Text.stripBlanks source)
          (tokenize C (Text.stripBlanks source)) = .ok leaves ∧
        ∀ inner, inner <:+: leaves → ∀ e,
          (compileTokens schema (Token.sourceText inner) inner).result = .error e →
            e.Unresolved) := by
  refine ⟨fun hunknown => ?_, fun hknown hoffends => ?_, fun hmeaningful => ⟨?_, ?_⟩⟩
  · obtain ⟨front, l, hfirst⟩ := Lexeme.exists_first hunknown
    obtain ⟨back, hsplit⟩ := hfirst.split
    exact ⟨front, l, hfirst, parse_of_unknown hsplit hfirst.holds hfirst.before,
      Lexeme.cuts_span front back l hsplit⟩
  · obtain ⟨front, l, hfirst⟩ := Lexeme.exists_first hoffends
    obtain ⟨back, hsplit⟩ := hfirst.split
    have hfront : ∀ m ∈ front, (leaf? schema m).isSome :=
      fun m hm => (leaf?_isSome_iff schema m).2 (not_not.1 (hfirst.before m hm)).2
    have hkind : l.kind ≠ .unknown := hknown l (by simp [hsplit])
    have hl : leaf? schema l = none := by
      rw [← Option.not_isSome_iff_eq_none, leaf?_isSome_iff]
      exact fun hleaf => hfirst.holds ⟨hkind, hleaf⟩
    refine ⟨front, l, hfirst, ?_, Lexeme.cuts_span front back l hsplit⟩
    have hparse := parse_of_leaf hsplit hknown hl hfront
    obtain ⟨kind, text⟩ := l
    cases kind with
    | identifier => exact .inl ⟨rfl, Option.map_eq_none_iff.1 hl, hparse⟩
    | number => exact .inr ⟨rfl, Option.map_eq_none_iff.1 hl, hparse⟩
    | _ => cases hl
  · exact fun e he => unresolved_of_parse hmeaningful he
  · obtain ⟨leaves, hleaves, hsettled⟩ := leaves_of_meaningful hmeaningful
    refine ⟨leaves, hleaves, fun inner hinner e he => ?_⟩
    rw [compileTokens_settled schema fun t ht => hsettled t (hinner.subset ht)] at he
    exact unresolved_of_groupValue he

end EventCuts
