import EventCuts.Proofs.Acceptance
import EventCuts.Proofs.Agreement
import EventCuts.Proofs.FloatTexts

/-!
# Names of composed expressions

Operators name what they compose by its text, with brackets around the operands. The text is
that of a term with the same function, so that the name compiles to the expression again.
-/

namespace EventCuts

variable {C : Type} {schema : Schema C}

def Lexeme.IsName (text : String) : Prop :=
  ∃ c rest, text.toList = c :: rest ∧ isNameStart c = true ∧ ∀ d ∈ rest, isNameChar d = true

/-- Composed from variables, each under the name it has in the schema, and from finite constants.
What is subscripted is a variable. -/
inductive Composed (schema : Schema C) : Expr C → Prop
  | named {n : String} {v : Expr C} : Lexeme.IsName n → schema n = some v →
      Composed schema (v.rename n)
  | constant {x : Float} : x.isFinite = true → Composed schema (.constant x)
  | unary {e : Expr C} (op : PrefixOp) : Composed schema e → Composed schema (e.unary op)
  | binary {l r : Expr C} (op : BinaryOp) : Composed schema l → Composed schema r →
      Composed schema (.binary op l r)
  | subscript {n : String} {v i e : Expr C} : Lexeme.IsName n → schema n = some v →
      Composed schema i → (v.rename n).subscript i = some e → Composed schema e

def Lexeme.Kept (l : Lexeme) : Prop :=
  (∀ c ∈ l.text.toList, Text.isBlank c = false) ∧ (l.kind = .number → (readNumber l.text).isSome)

/-- The term spells the name of the expression and has its function. -/
structure Names (schema : Schema C) (t : Term) (e : Expr C) : Prop where
  name_eq : e.name = t.text
  derives : Derives schema .disjunction t t.lexemes
  lexed : Lexeme.Lexed t.lexemes
  kept : ∀ l ∈ t.lexemes, l.Kept
  agrees : (t.expr schema).Agrees e

namespace Lexeme

theorem kept_of_all {l : Lexeme} (h : l.text.toList.all (fun c => !Text.isBlank c) = true)
    (hk : l.kind ≠ .number) : l.Kept := by
  refine ⟨?_, fun hnumber => absurd hnumber hk⟩
  intro c hc
  simpa using List.all_eq_true.1 h c hc

theorem kept_opening (b : Bracket) : (opening b).Kept := by
  cases b <;> exact kept_of_all (by decide) nofun

theorem kept_closing (b : Bracket) : (closing b).Kept := by
  cases b <;> exact kept_of_all (by decide) nofun

theorem kept_prefixOp (op : PrefixOp) : op.lexeme.Kept := by
  cases op <;> exact kept_of_all (by decide) nofun

theorem kept_binaryOp (op : BinaryOp) : op.lexeme.Kept := by
  cases op <;> exact kept_of_all (by decide) nofun

theorem kept_wrap {ls : List Lexeme} (b : Bracket) (h : ∀ l ∈ ls, l.Kept) :
    ∀ l ∈ opening b :: (ls ++ [closing b]), l.Kept :=
  List.forall_mem_cons.2 ⟨kept_opening b,
    List.forall_mem_append.2 ⟨h, List.forall_mem_singleton.2 (kept_closing b)⟩⟩

theorem lexed_prefixOp (op : PrefixOp) : Lexed [op.lexeme] := by
  cases op <;> decide +kernel

theorem lexed_binaryOp (op : BinaryOp) : Lexed [op.lexeme] := by
  cases op <;> decide +kernel

theorem Lexed.append_bracketed {ls ms : List Lexeme} (h : Lexed ls) (hms : Bracketed ms) :
    Lexed (ls ++ ms) := by
  obtain ⟨⟨b, tail, hb, hchars⟩, hcut⟩ := hms
  have hms := hcut []
  rw [List.append_nil, Lexeme.cut, List.append_nil, hchars] at hms
  rw [Lexed, chars_append, hchars, h.append_bracket hb, hms]

theorem Bracketed.append_lexed {ms ls : List Lexeme} (hms : Bracketed ms) (h : Lexed ls) :
    Lexed (ms ++ ls) := by
  rw [Lexed, chars_append, hms.2, h]

theorem not_blank_of_visible {c : Char} (h : '!' ≤ c ∧ c ≤ '~') : Text.isBlank c = false := by
  have hlow : 33 ≤ c.toNat := h.1
  have hhigh : c.toNat ≤ 126 := h.2
  simp only [Text.isBlank, Text.inRanges, Text.blankRanges, List.any_cons, List.any_nil,
    Bool.or_false, Bool.or_eq_false_iff, Bool.and_eq_false_iff, decide_eq_false_iff_not]
  omega

theorem visible_of_isNameChar {c : Char} (h : isNameChar c = true) : '!' ≤ c ∧ c ≤ '~' := by
  simp only [isNameChar, Char.isAlphanum, Char.isAlpha, Char.isUpper, Char.isLower, Char.isDigit,
    Bool.or_eq_true, Bool.and_eq_true, decide_eq_true_eq, beq_iff_eq] at h
  rcases h with (((⟨hl, hh⟩ | ⟨hl, hh⟩) | ⟨hl, hh⟩) | rfl)
  · exact ⟨Char.le_trans (by decide) hl, Char.le_trans hh (by decide)⟩
  · exact ⟨Char.le_trans (by decide) hl, Char.le_trans hh (by decide)⟩
  · exact ⟨Char.le_trans (by decide) hl, Char.le_trans hh (by decide)⟩
  · decide

theorem lexed_name {text : String} (h : IsName text) : Lexed [⟨.identifier, text⟩] := by
  obtain ⟨c, rest, htext, hc, hrest⟩ := h
  have hdigraph : digraphAt c rest = none := by
    cases rest with
    | nil => rfl
    | cons d rest =>
      simp only [digraphAt, Kind.ofDigraph]
      split
      all_goals first | rfl | exact absurd hc (by decide)
  have hpunctuation : Kind.ofPunctuation c = none := by
    unfold Kind.ofPunctuation
    split
    all_goals first | rfl | exact absurd hc (by decide)
  have hrun : Literal.run isNameChar rest = rest.length := by
    have hend : Literal.Stops isNameChar [] := by simp [Literal.Stops]
    have h := Literal.run_append hrest hend
    rwa [List.append_nil] at h
  have hscan : scan c rest = (.identifier, rest.length) := by
    simp only [scan, hdigraph, hpunctuation, hc, if_true, hrun]
  rw [Lexed, chars_cons, chars_nil, List.append_nil, htext, cut_cons, hscan, List.take_length,
    List.drop_length, ← htext, String.ofList_toList, cut]

theorem kept_name {text : String} (h : IsName text) : Kept ⟨.identifier, text⟩ := by
  obtain ⟨c, rest, htext, hc, hrest⟩ := h
  refine ⟨?_, nofun⟩
  intro d hd
  rw [htext] at hd
  rcases List.mem_cons.1 hd with rfl | hd
  · exact not_blank_of_visible (visible_of_isNameChar (isNameChar_of_isNameStart hc))
  · exact not_blank_of_visible (visible_of_isNameChar (hrest d hd))

theorem lexed_spelled {text : List Char} {x : Float} (h : Spells text x) :
    Lexed [⟨.number, String.ofList text⟩] := by
  obtain ⟨c, ds, rfl, hc⟩ := h.digit
  exact lexed_literal hc h.literal

theorem kept_spelled {text : List Char} {x : Float} (h : Spells text x) :
    Kept ⟨.number, String.ofList text⟩ := by
  refine ⟨?_, fun _ => ?_⟩
  · intro c hc
    rw [String.toList_ofList] at hc
    exact not_blank_of_visible (Literal.visible_of_uses (h.literal.uses c hc))
  · rw [h.readNumber_eq]
    rfl

end Lexeme

namespace Names

variable {t u : Term} {e l r : Expr C}

theorem name {n : String} {v : Expr C} (hn : Lexeme.IsName n) (hs : schema n = some v) :
    Names schema (.name n) (v.rename n) where
  name_eq := rfl
  derives := (Derives.name hs).disjunction
  lexed := Lexeme.lexed_name hn
  kept := List.forall_mem_singleton.2 (Lexeme.kept_name hn)
  agrees := by
    simp only [Term.expr, hs]
    exact Payload.Agrees.refl _

theorem number {text : List Char} {x : Float} (h : Spells text x) (name : String)
    (hname : name = String.ofList text) :
    Names schema (.number (String.ofList text)) (.scalar name fun _ => .ok x) where
  name_eq := hname
  derives := (Derives.number _).disjunction
  lexed := Lexeme.lexed_spelled h
  kept := List.forall_mem_singleton.2 (Lexeme.kept_spelled h)
  agrees := by
    simp only [Term.expr, h.readNumber_eq, Option.getD_some]
    exact Payload.Agrees.refl _

theorem unary (op : PrefixOp) (h : Names schema t e) :
    Names schema (.prefixed op (.group t)) (e.unary op) where
  name_eq := by
    rw [Expr.unary, Term.text, Term.text, h.name_eq]
    simp only [String.append_assoc]
  derives := (Derives.prefixed op
    ((Derives.group h.derives).mono (b := .signed) (Nat.zero_le _))).disjunction
  lexed := (Lexeme.lexed_prefixOp op).append_bracketed (Lexeme.bracketed_wrap .round h.lexed)
  kept := List.forall_mem_cons.2 ⟨Lexeme.kept_prefixOp op, Lexeme.kept_wrap .round h.kept⟩
  agrees := (h.agrees.rename _ _).unary op

theorem opposite {text : List Char} {x y : Float} (h : Spells text y) (hxy : -y = x)
    (name : String) (hname : name = String.ofList ('-' :: text)) :
    Names schema (.prefixed .minus (.number (String.ofList text)))
      (.scalar name fun _ => .ok x) where
  name_eq := hname.trans (@String.ofList_append ['-'] text)
  derives := (Derives.prefixed .minus
    ((Derives.number _).mono (b := .signed) (Nat.zero_le _))).disjunction
  lexed := by
    have hnumber := Lexeme.lexed_spelled h
    obtain ⟨c, ds, rfl, _⟩ := h.digit
    have hscan : Lexeme.scan '-' (c :: ds) = (.ambiguous .minus, 0) := by
      simp [Lexeme.scan, Lexeme.digraphAt, Kind.ofDigraph, Kind.ofPunctuation]
    have hchars : Lexeme.chars [⟨.number, String.ofList (c :: ds)⟩] = c :: ds := by
      rw [Lexeme.chars_cons, Lexeme.chars_nil, List.append_nil, String.toList_ofList]
    rw [Lexeme.Lexed, hchars] at hnumber
    change Lexeme.cut ('-' :: Lexeme.chars [⟨.number, String.ofList (c :: ds)⟩]) = _
    rw [hchars, Lexeme.cut_cons, hscan, List.take_zero, List.drop_zero, hnumber]
    rfl
  kept := List.forall_mem_cons.2 ⟨Lexeme.kept_prefixOp .minus,
    List.forall_mem_singleton.2 (Lexeme.kept_spelled h)⟩
  agrees := by
    subst hxy
    have hnumber : Names schema _ (.scalar _ fun _ => .ok y) := number h _ rfl
    exact hnumber.agrees.unary .minus

theorem constant {x : Float} (hx : x.isFinite = true) : ∃ t, Names schema t (Expr.constant x) := by
  rcases render_plain hx with ⟨text, h, hname⟩ | ⟨text, h, hname⟩
  · exact ⟨_, number h _ hname⟩
  · exact ⟨_, opposite h (Exact.neg_neg_of_isFinite hx) _ hname⟩

theorem binary (op : BinaryOp) (hl : Names schema t l) (hr : Names schema u r) :
    Names schema (.binary op (.group t) (.group u)) (.binary op l r) where
  name_eq := by
    rw [Expr.binary, Term.text, Term.text, Term.text, hl.name_eq, hr.name_eq]
    simp only [String.append_assoc]
  derives := by
    have hleft := (Derives.group hl.derives).mono (b := op.level) (Nat.zero_le _)
    have hright := (Derives.group hr.derives).mono (b := op.level.tighter) (Nat.zero_le _)
    exact (Derives.binary op rfl hleft hright).disjunction
  lexed := (Lexeme.bracketed_wrap .round hl.lexed).append_lexed
    ((Lexeme.lexed_binaryOp op).append_bracketed (Lexeme.bracketed_wrap .round hr.lexed))
  kept := List.forall_mem_append.2 ⟨Lexeme.kept_wrap .round hl.kept,
    List.forall_mem_cons.2 ⟨Lexeme.kept_binaryOp op, Lexeme.kept_wrap .round hr.kept⟩⟩
  agrees := (hl.agrees.rename _ _).binary op (hr.agrees.rename _ _)

theorem shape_eq (h : Names schema t e) : t.shape schema = e.shape :=
  h.derives.shape_expr.symm.trans h.agrees.shape_eq

theorem subscript {n : String} {v i : Expr C} (hn : Lexeme.IsName n) (hs : schema n = some v)
    (hi : Names schema t i) (he : (v.rename n).subscript i = some e) :
    Names schema (.entry (.name n) t) e := by
  have hv := name hn hs
  have hshapes : (v.rename n).isVector = true ∧ i.isScalar = true := by
    have hsome := Expr.subscript_isSome (v.rename n) i
    rw [he] at hsome
    simpa using hsome.symm
  have hvshape : (Term.name n).shape schema = .vector :=
    hv.shape_eq.trans (by simpa [Expr.isVector] using hshapes.1)
  have hishape : t.shape schema = .scalar :=
    hi.shape_eq.trans (by simpa [Expr.isScalar] using hshapes.2)
  have hprimary : Derives schema .primary (.name n) (Term.name n).lexemes := .name hs
  have hd := Derives.entry hprimary hi.derives hvshape hishape
  obtain ⟨a, ha, _⟩ := Expr.exists_subscript (i := (t.expr schema).rename t.text)
    (hprimary.shape_expr.trans hvshape) (hi.derives.shape_expr.trans hishape)
  refine ⟨?_, hd.disjunction, ?_, ?_, ?_⟩
  · rw [Term.text, Term.text, ← hi.name_eq]
    obtain ⟨_, _ | f⟩ := v
    · cases he
    · obtain ⟨m, g | _⟩ := i
      · cases he
        rfl
      · cases he
  · exact hv.lexed.append_bracketed (Lexeme.bracketed_wrap .square hi.lexed)
  · exact List.forall_mem_append.2 ⟨hv.kept, Lexeme.kept_wrap .square hi.kept⟩
  · have hexpr : (Term.entry (.name n) t).expr schema =
        a.rename ((Term.name n).text ++ "[" ++ t.text ++ "]") := by
      rw [Term.expr, ha]
    rw [hexpr]
    exact (hv.agrees.subscript (hi.agrees.rename _ _) ha he).rename _ _

theorem parse_eq (h : Names schema t e) :
    parse schema e.name = .ok ((t.expr schema).rename e.name) := by
  have hjoin : e.name = String.join (t.lexemes.map Lexeme.text) := by
    rw [Term.join_lexemes, h.name_eq]
  have hblank : ∀ c ∈ Lexeme.chars t.lexemes, Text.isBlank c = false := by
    intro c hc
    obtain ⟨l, hl, hc⟩ := List.mem_flatMap.1 hc
    exact (h.kept l hl).1 c hc
  have hsource : Lexeme.ofSource e.name = t.lexemes := by
    rw [hjoin]
    exact h.lexed.ofSource_join hblank
  have hd : Derives schema .disjunction t (Lexeme.ofSource e.name) := hsource ▸ h.derives
  have hr : Readable (Lexeme.ofSource e.name) := by
    rw [hsource]
    exact fun l hl => (h.kept l hl).2
  rw [parse_of_derives hd hr, ← hd.text_eq, ← h.name_eq]

end Names

theorem exists_names {e : Expr C} (h : Composed schema e) : ∃ t, Names schema t e := by
  induction h with
  | named hn hs => exact ⟨_, .name hn hs⟩
  | constant hx => exact Names.constant hx
  | unary op _ ih =>
    obtain ⟨t, ht⟩ := ih
    exact ⟨_, ht.unary op⟩
  | binary op _ _ ihl ihr =>
    obtain ⟨t, ht⟩ := ihl
    obtain ⟨u, hu⟩ := ihr
    exact ⟨_, ht.binary op hu⟩
  | subscript hn hs _ he ih =>
    obtain ⟨t, ht⟩ := ih
    exact ⟨_, .subscript hn hs ht he⟩

/-- The name of a composed expression compiles to an expression of that name and shape, which
answers the same or fails for the same reason. -/
theorem parse_name_of_composed {e : Expr C} (h : Composed schema e) :
    ∃ p, parse schema e.name = .ok p ∧ p.name = e.name ∧ p.shape = e.shape ∧
      ∀ c, Agrees (p.eval c) (e.eval c) := by
  obtain ⟨t, ht⟩ := exists_names h
  have hagrees := ht.agrees.rename e.name e.name
  exact ⟨_, ht.parse_eq, rfl, hagrees.shape_eq, hagrees.eval⟩

theorem parse_name_of_composed_first_entry :
    ∃ first p : Expr (List Float), (Expr.vector "v" .ok).subscript (.constant 0) = some first ∧
      parse VariableTable.ofColumn.schema "(v[0])-(-2.5)" = .ok p ∧ p.shape = .scalar ∧
      ∀ c, Agrees (p.eval c) ((Expr.binary .sub first (.constant (-2.5))).eval c) := by
  have hv : Lexeme.IsName "v" := ⟨'v', [], rfl, rfl, nofun⟩
  obtain ⟨first, hfirst⟩ : ∃ first : Expr (List Float),
      (Expr.vector "v" .ok).subscript (.constant 0) = some first := ⟨_, rfl⟩
  have hzero : Composed VariableTable.ofColumn.schema (.constant 0) := .constant (by decide +kernel)
  have hentry : Composed VariableTable.ofColumn.schema first := .subscript hv rfl hzero hfirst
  have hcomposed := hentry.binary .sub (.constant (x := -2.5) (by decide +kernel))
  have hname : (Expr.binary .sub first (.constant (-2.5))).name = "(v[0])-(-2.5)" := by
    cases hfirst
    decide +kernel
  obtain ⟨p, hp, _, hshape, heval⟩ := parse_name_of_composed hcomposed
  rw [hname] at hp
  refine ⟨first, p, hfirst, hp, ?_, heval⟩
  rw [hshape]
  cases hfirst
  rfl

end EventCuts
