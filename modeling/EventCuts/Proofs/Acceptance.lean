import EventCuts.Proofs.Completeness
import EventCuts.Proofs.Soundness

/-!
# What the compiler accepts

A text compiles exactly if its leaves have a meaning and its lexemes are derived by the
grammar; what it compiles to is the expression of any term that its lexemes derive.
-/

namespace EventCuts

variable {C : Type} {schema : Schema C}

def Lexeme.Meaningful (schema : Schema C) (l : Lexeme) : Prop :=
  l.kind ≠ .unknown ∧ (l.kind = .identifier → (schema l.text).isSome) ∧
    (l.kind = .number → (readNumber l.text).isSome)

theorem meaningful_of_parse {source : String} {e : Expr C} (h : parse schema source = .ok e) :
    ∀ l ∈ Lexeme.ofSource source, l.Meaningful schema := by
  obtain ⟨hknown, leaves, _, _, _, hleaves, _⟩ := (parse_ok_iff _ _ _).1 h
  intro l hl
  have hleaf : (leaf? schema l).isSome := by
    obtain ⟨i, hi, rfl⟩ := List.getElem_of_mem hl
    have hlt : i < leaves.length := hleaves.length_eq ▸ hi
    exact Option.isSome_iff_exists.2 ⟨leaves[i], hleaves.get hi hlt⟩
  exact ⟨hknown l hl, (leaf?_isSome_iff schema l).1 hleaf⟩

theorem readable_of_parse {source : String} {e : Expr C} (h : parse schema source = .ok e) :
    Readable (Lexeme.ofSource source) :=
  fun l hl => (meaningful_of_parse h l hl).2.2

theorem parse_eq_ok_iff {source : String} {t : Term}
    (ht : Derives schema .disjunction t (Lexeme.ofSource source)) (e : Expr C) :
    parse schema source = .ok e ↔
      Readable (Lexeme.ofSource source) ∧ e = (t.expr schema).rename (Text.stripBlanks source) := by
  constructor
  · intro h
    have hr := readable_of_parse h
    rw [parse_of_derives ht hr] at h
    exact ⟨hr, (Except.ok.inj h).symm⟩
  · intro ⟨hr, he⟩
    rw [he]
    exact parse_of_derives ht hr

theorem name_of_parse {source : String} {e : Expr C} (h : parse schema source = .ok e) :
    e.name = Text.stripBlanks source := by
  obtain ⟨t, ht, _⟩ := derives_of_parse h
  obtain ⟨_, rfl⟩ := (parse_eq_ok_iff ht e).1 h
  rfl

/-- The compiler accepts the language of the grammar, and answers in the derived shape. -/
theorem parse_accepts_grammar (schema : Schema C) (source : String) :
    ((∃ e, parse schema source = .ok e) ↔
      (∀ l ∈ Lexeme.ofSource source, l.Meaningful schema) ∧
        ∃ t, Derives schema .disjunction t (Lexeme.ofSource source)) ∧
    ∀ e t, parse schema source = .ok e →
      Derives schema .disjunction t (Lexeme.ofSource source) → e.shape = t.shape schema := by
  refine ⟨⟨?_, ?_⟩, ?_⟩
  · intro ⟨e, he⟩
    obtain ⟨t, ht, _⟩ := derives_of_parse he
    exact ⟨meaningful_of_parse he, t, ht⟩
  · intro ⟨hleaves, t, ht⟩
    exact ⟨_, parse_of_derives ht fun l hl => (hleaves l hl).2.2⟩
  · intro e t he ht
    obtain ⟨_, rfl⟩ := (parse_eq_ok_iff ht e).1 he
    exact ht.shape_expr

def VariableTable.ofColumn : VariableTable (List Float) := ofList [.vector "v" .ok]

theorem derives_column (level : Level) :
    Derives VariableTable.ofColumn.schema level (.name "v") [⟨.identifier, "v"⟩] := by
  have hname : Derives VariableTable.ofColumn.schema .primary (.name "v") _ := .name rfl
  exact hname.mono (Nat.zero_le level.rank)

end EventCuts
