import EventCuts.Compile
import Mathlib.Data.List.Forall2

/-!
# Outcomes of a compilation

What a sweep keeps of the tokens, and what a compilation answers once its log is left
aside: each stage succeeds exactly if its parts do.
-/

namespace EventCuts

variable {C : Type}

namespace Reduction

theorem sweep_relation {push : List (Token C) → Token C → List (Token C)}
    {P : List (Token C) → List (Token C) → Prop}
    (hpush : ∀ stack t rest, P stack (t :: rest) → P (push stack t) rest)
    {tokens : List (Token C)} (h : P [] tokens) : P (sweep push tokens).reverse [] := by
  have hfold : ∀ tokens stack, P stack tokens → P (tokens.foldl push stack) [] := by
    intro tokens
    induction tokens with
    | nil => exact fun stack h => h
    | cons t rest ih => exact fun stack h => ih (push stack t) (hpush stack t rest h)
  simpa only [sweep, List.reverse_reverse] using hfold tokens [] h

theorem sweep_invariant {push : List (Token C) → Token C → List (Token C)}
    {P : List (Token C) → Prop}
    (hpush : ∀ stack t rest, P (stack.reverse ++ t :: rest) → P ((push stack t).reverse ++ rest))
    {tokens : List (Token C)} (h : P tokens) : P (sweep push tokens) := by
  have hrel := sweep_relation (P := fun stack rest => P (stack.reverse ++ rest)) hpush h
  rwa [List.reverse_reverse, List.append_nil] at hrel

theorem pushPrefixed_cases (stack : List (Token C)) (t : Token C) :
    pushPrefixed stack t = t :: stack ∨
      ∃ e, t.value = some e ∧ pushPrefixed stack t = applyPrefixes stack e := by
  cases hv : t.value with
  | none => simp [pushPrefixed, hv]
  | some e =>
    cases stack with
    | nil => simp [pushPrefixed, hv]
    | cons top below =>
      cases hk : top.kind with
      | prefixOp op => simp [pushPrefixed, hv, hk, applyPrefixes]
      | _ => simp [pushPrefixed, hv, hk]

theorem pushOperand_cases (ops : List BinaryOp) (stack : List (Token C)) (t : Token C) :
    (∃ operator left below op l right, stack = operator :: left :: below ∧
      operator.kind = .binary op ∧ op ∈ ops ∧ left.value = some l ∧ t.value = some right ∧
        pushOperand ops stack t = Token.resolved (l.binary op right) :: below) ∨
    pushOperand ops stack t = t :: stack ∧
      ∀ operator left below, stack = operator :: left :: below → ∀ op ∈ ops,
        operator.kind = .binary op → ∀ l, left.value = some l → t.value = none := by
  by_cases h : ∃ operator left below op l right, stack = operator :: left :: below ∧
      operator.kind = .binary op ∧ op ∈ ops ∧ left.value = some l ∧ t.value = some right
  · obtain ⟨operator, left, below, op, l, right, rfl, hop, hmem, hleft, hright⟩ := h
    refine .inl ⟨operator, left, below, op, l, right, rfl, hop, hmem, hleft, hright, ?_⟩
    simp only [pushOperand, hright, hop, hleft, if_pos hmem]
  · refine .inr ⟨?_, ?_⟩
    · unfold pushOperand
      split
      · next right operator left below hright =>
        split
        · next op l hop hleft =>
          exact if_neg fun hmem => h ⟨_, _, _, op, l, right, rfl, hop, hmem, hleft, hright⟩
        · rfl
      · rfl
    · intro operator left below hstack op hmem hop l hleft
      cases hright : t.value with
      | none => rfl
      | some right => exact absurd ⟨_, _, _, op, l, right, hstack, hop, hmem, hleft, hright⟩ h

theorem applyAll_pipeline (tokens : List (Token C)) :
    applyAll pipeline tokens =
      applyAll (BinaryOp.precedence.map operators)
        (sweep pushPrefixed <| sweep pushSign <| sweep pushSubscript <|
          sweep pushParenthesis tokens) := by
  simp only [applyAll, pipeline, List.foldl_append, List.foldl_cons, List.foldl_nil, apply]

end Reduction

theorem bind_eq_ok {ε α β : Type} {x : Except ε α} {f : α → Except ε β} {b : β}
    (h : x >>= f = .ok b) : ∃ a, x = .ok a ∧ f a = .ok b := by
  cases x with
  | error e => cases h
  | ok a => exact ⟨a, rfl, h⟩

theorem bind_eq_error {ε α β : Type} {x : Except ε α} {f : α → Except ε β} {e : ε}
    (h : x >>= f = .error e) : x = .error e ∨ ∃ a, x = .ok a ∧ f a = .error e := by
  cases x with
  | error e =>
    cases h
    exact .inl rfl
  | ok a => exact .inr ⟨a, rfl, h⟩

namespace Logged

variable {α β : Type}

theorem bind_ok_iff (x : Logged α) (f : α → Logged β) (b : β) :
    (x >>= f).result = .ok b ↔ ∃ a, x.result = .ok a ∧ (f a).result = .ok b := by
  cases hx : x.result with
  | ok a => simp [bind_ok hx]
  | error e => simp [bind_error hx]

theorem mem_log_bind_iff (x : Logged α) (f : α → Logged β) (event : LogEvent) :
    event ∈ (x >>= f).log ↔ event ∈ x.log ∨ ∃ a, x.result = .ok a ∧ event ∈ (f a).log := by
  cases hx : x.result with
  | ok a => simp [bind_ok hx]
  | error e => simp [bind_error hx]

end Logged

theorem checkSolved_ok_iff (source : String) (tokens : List (Token C)) (t : Token C) :
    checkSolved source tokens = .ok t ↔ tokens = [t] ∧ t.isResolved = true := by
  rcases tokens with _ | ⟨u, _ | ⟨v, rest⟩⟩
  · simp [checkSolved]
  · by_cases h : u.isResolved = true
    · simp only [checkSolved, h, if_true, Except.ok.injEq, List.cons.injEq, and_true]
      constructor
      · rintro rfl
        exact ⟨rfl, h⟩
      · exact And.left
    · simp only [checkSolved, h, Bool.false_eq_true, if_false, reduceCtorEq, List.cons.injEq,
        and_true, false_iff]
      rintro ⟨rfl, ht⟩
      exact h ht
  · simp [checkSolved]

theorem condense_ok_iff (source : String) (tokens : List (Token C)) (t : Token C) :
    (condense source tokens).result = .ok t ↔
      ∃ u, Reduction.applyAll Reduction.pipeline tokens = [u] ∧ u.isResolved = true ∧
        t = u.rename source := by
  simp only [condense, Logged.bind_ok_iff, Logged.tell, Logged.ofExcept, Logged.pure_eq,
    checkSolved_ok_iff, Except.ok.injEq]
  constructor
  · rintro ⟨_, _, _, _, u, ⟨hu, hr⟩, _, _, rfl⟩
    exact ⟨u, hu, hr, rfl⟩
  · rintro ⟨u, hu, hr, rfl⟩
    exact ⟨(), trivial, (), trivial, u, ⟨hu, hr⟩, (), trivial, rfl⟩

/-- Induction along the groups: over what stands inside of one and behind it, or behind a token that
opens none. -/
theorem groups_induction {P : List (Token C) → Prop} (nil : P [])
    (group : ∀ t rest n, groupLength t rest = some (n + 1) →
      P (rest.take (n + 1)) → P (rest.drop (n + 1)) → P (t :: rest))
    (single : ∀ t rest, (∀ n, groupLength t rest ≠ some (n + 1)) → P rest → P (t :: rest))
    (tokens : List (Token C)) : P tokens :=
  compileGroups.induct P nil group single tokens

theorem compileGroups_nil_result : (compileGroups ([] : List (Token C))).result = .ok [] := by
  rw [compileGroups]
  rfl

theorem compileGroups_group_iff {t : Token C} {rest out : List (Token C)} {n : Nat}
    (hn : groupLength t rest = some (n + 1)) :
    (compileGroups (t :: rest)).result = .ok out ↔
      ∃ groups value others, (compileGroups (rest.take (n + 1))).result = .ok groups ∧
        (condense (Token.sourceText (rest.take (n + 1))) groups).result = .ok value ∧
        (compileGroups (rest.drop (n + 1))).result = .ok others ∧
        out = t :: value :: others := by
  rw [compileGroups, hn]
  simp only [Logged.bind_ok_iff, Logged.tell, Logged.pure_eq, Except.ok.injEq]
  constructor
  · rintro ⟨_, _, groups, hg, value, hv, others, ho, rfl⟩
    exact ⟨groups, value, others, hg, hv, ho, rfl⟩
  · rintro ⟨groups, value, others, hg, hv, ho, rfl⟩
    exact ⟨(), trivial, groups, hg, value, hv, others, ho, rfl⟩

theorem compileGroups_single_iff {t : Token C} {rest out : List (Token C)}
    (hn : ∀ n, groupLength t rest ≠ some (n + 1)) :
    (compileGroups (t :: rest)).result = .ok out ↔
      ∃ others, (compileGroups rest).result = .ok others ∧ out = t :: others := by
  rw [compileGroups]
  split
  · exact absurd ‹_› (hn _)
  · simp only [Logged.bind_ok_iff, Logged.pure_eq, Except.ok.injEq]
    constructor
    · rintro ⟨others, ho, rfl⟩
      exact ⟨others, ho, rfl⟩
    · rintro ⟨others, ho, rfl⟩
      exact ⟨others, ho, rfl⟩

theorem checkUnknown_ok_iff (source : String) (tokens : List (Token C)) (u : Unit) :
    checkUnknown source tokens = .ok u ↔ ∀ t ∈ tokens, t.kind ≠ .unknown := by
  have hfirst : ∀ offset, firstUnknown offset tokens = none ↔ ∀ t ∈ tokens, t.kind ≠ .unknown := by
    induction tokens with
    | nil => simp [firstUnknown]
    | cons t rest ih =>
      intro offset
      by_cases h : t.kind = .unknown
      · simp [firstUnknown, h]
      · simp [firstUnknown, h, ih]
  rw [← hfirst 0, checkUnknown]
  cases firstUnknown 0 tokens <;> simp

def leaf? (schema : Schema C) (l : Lexeme) : Option (Token C) :=
  match l.kind with
  | .identifier => (schema l.text).map fun e => Token.resolved (e.rename l.text)
  | .number => (readNumber l.text).map fun x => Token.resolved (Expr.scalar l.text fun _ => .ok x)
  | _ => some (Token.ofLexeme l)

theorem resolveLeaf_ok_iff (schema : Schema C) (source : String) (offset : Nat) (l : Lexeme)
    (t : Token C) :
    resolveLeaf schema source offset (Token.ofLexeme l) = .ok t ↔ leaf? schema l = some t := by
  obtain ⟨kind, text⟩ := l
  cases kind with
  | identifier =>
    simp only [resolveLeaf, Token.ofLexeme, leaf?]
    cases schema text <;> simp
  | number =>
    simp only [resolveLeaf, Token.ofLexeme, leaf?]
    cases readNumber text <;> simp
  | _ => simp [resolveLeaf, Token.ofLexeme, leaf?]

theorem resolveLeavesFrom_ok_iff (schema : Schema C) (source : String) (offset : Nat)
    (ls : List Lexeme) (leaves : List (Token C)) :
    resolveLeavesFrom schema source offset (ls.map Token.ofLexeme) = .ok leaves ↔
      List.Forall₂ (fun l t => leaf? schema l = some t) ls leaves := by
  induction ls generalizing offset leaves with
  | nil => cases leaves <;> simp [resolveLeavesFrom]
  | cons l ls ih =>
    have hleaf := resolveLeaf_ok_iff schema source offset l
    have hrest := ih (offset + (Token.ofLexeme l : Token C).text.utf8ByteSize)
    simp only [List.map_cons, resolveLeavesFrom, List.forall₂_cons_left_iff, ← hleaf, ← hrest]
    cases resolveLeaf schema source offset (Token.ofLexeme l) with
    | error e => simp [bind, Except.bind]
    | ok t =>
      cases resolveLeavesFrom schema source
        (offset + (Token.ofLexeme l : Token C).text.utf8ByteSize) (ls.map Token.ofLexeme) with
      | error e => simp [bind, Except.bind]
      | ok ts => simp [bind, Except.bind, pure, Except.pure, eq_comm]

theorem exists_leaves {schema : Schema C} {ls : List Lexeme}
    (h : ∀ l ∈ ls, (leaf? schema l).isSome) (source : String) (offset : Nat) :
    ∃ leaves, resolveLeavesFrom schema source offset (ls.map Token.ofLexeme) = .ok leaves := by
  simp only [resolveLeavesFrom_ok_iff]
  induction ls with
  | nil => exact ⟨[], .nil⟩
  | cons l ls ih =>
    obtain ⟨hl, hls⟩ := List.forall_mem_cons.1 h
    obtain ⟨t, ht⟩ := Option.isSome_iff_exists.1 hl
    obtain ⟨leaves, hleaves⟩ := ih hls
    exact ⟨t :: leaves, .cons ht hleaves⟩

theorem leaf?_isSome_iff (schema : Schema C) (l : Lexeme) :
    (leaf? schema l).isSome ↔
      (l.kind = .identifier → (schema l.text).isSome) ∧
        (l.kind = .number → (readNumber l.text).isSome) := by
  obtain ⟨kind, text⟩ := l
  cases kind <;> simp [leaf?]

theorem tokenize_stripBlanks (source : String) :
    tokenize C (Text.stripBlanks source) = (Lexeme.ofSource source).map Token.ofLexeme := by
  simp only [tokenize, Lexeme.ofSource, Text.stripBlanks_stripBlanks]

theorem parse_ok_iff (schema : Schema C) (source : String) (e : Expr C) :
    parse schema source = .ok e ↔
      (∀ l ∈ Lexeme.ofSource source, l.kind ≠ .unknown) ∧
        ∃ leaves groups t f,
          List.Forall₂ (fun l t => leaf? schema l = some t) (Lexeme.ofSource source) leaves ∧
          (compileGroups leaves).result = .ok groups ∧
          Reduction.applyAll Reduction.pipeline groups = [t] ∧ t.isResolved = true ∧
          t.value = some f ∧ e = f.rename (Text.stripBlanks source) := by
  simp only [parse, compile, compileTokens, Logged.bind_ok_iff, condense_ok_iff, Logged.tell,
    Logged.ofExcept, checkUnknown_ok_iff, tokenize_stripBlanks, resolveLeaves,
    resolveLeavesFrom_ok_iff, List.forall_mem_map]
  constructor
  · intro ⟨_, ⟨_, _, _, hu, leaves, hl, groups, hg, t, ht, hr, hn⟩, hv⟩
    subst hn
    cases hf : t.value with
    | none => simp [tokenValue, Token.rename, hf] at hv
    | some f =>
      refine ⟨hu, leaves, groups, t, f, hl, hg, ht, hr, hf, ?_⟩
      simpa [tokenValue, Token.rename, hf, eq_comm] using hv
  · intro ⟨hu, leaves, groups, t, f, hl, hg, ht, hr, hf, he⟩
    refine ⟨_, ⟨(), trivial, (), hu, leaves, hl, groups, hg, t, ht, hr, rfl⟩, ?_⟩
    simp [tokenValue, Token.rename, hf, he]

end EventCuts
