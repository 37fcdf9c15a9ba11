import EventCuts.Proofs.Acceptance
import EventCuts.Proofs.Guards
import EventCuts.Proofs.Sessions

/-!
# Reachable tokens

The tokens that the passes lead to when they are run in any order and any number of times, those
of sessions and those inside of groups among them. Whatever the way, the kind, the text and the
expression of a token agree.
-/

namespace EventCuts

variable {C : Type}

/-- Compiles the insides of groups like whole texts, since in any order of passes their leaves may
be unresolved. -/
def solveGroups (schema : Schema C) : List (Token C) → Except ParseError (List (Token C))
  | [] => pure []
  | t :: rest =>
    match groupLength t rest with
    | some (n + 1) => do
      let inside := rest.take (n + 1)
      let value ← (compileTokens schema (Token.sourceText inside) inside).result
      let others ← solveGroups schema (rest.drop (n + 1))
      pure (t :: value :: others)
    | _ => do
      let others ← solveGroups schema rest
      pure (t :: others)
termination_by tokens => tokens.length
decreasing_by all_goals simp only [List.length_drop, List.length_cons]; omega

theorem solveGroups_group (schema : Schema C) {t : Token C} {rest : List (Token C)} {n : Nat}
    (hn : groupLength t rest = some (n + 1)) :
    solveGroups schema (t :: rest) = (do
      let value ← (compileTokens schema (Token.sourceText (rest.take (n + 1)))
        (rest.take (n + 1))).result
      let others ← solveGroups schema (rest.drop (n + 1))
      pure (t :: value :: others)) := by
  rw [solveGroups, hn]

theorem solveGroups_single (schema : Schema C) {t : Token C} {rest : List (Token C)}
    (hn : ∀ n, groupLength t rest ≠ some (n + 1)) :
    solveGroups schema (t :: rest) = (do
      let others ← solveGroups schema rest
      pure (t :: others)) := by
  rw [solveGroups]
  split
  · exact absurd ‹_› (hn _)
  · rfl

theorem solveGroups_settled (schema : Schema C) {tokens : List (Token C)}
    (h : ∀ t ∈ tokens, t.Settled) : solveGroups schema tokens = (compileGroups tokens).result := by
  induction tokens using groups_induction with
  | nil =>
    rw [solveGroups, compileGroups_nil_result]
    rfl
  | group t rest n hn _ ih =>
    obtain ⟨_, hrest⟩ := List.forall_mem_cons.1 h
    have hinside : ∀ u ∈ rest.take (n + 1), u.Settled :=
      fun u hu => hrest u (List.mem_of_mem_take hu)
    rw [solveGroups_group schema hn, compileGroups_group hn, compileTokens_settled schema hinside,
      ih fun u hu => hrest u (List.mem_of_mem_drop hu), groupValue, bind_assoc]
  | single t rest hn ih =>
    obtain ⟨_, hrest⟩ := List.forall_mem_cons.1 h
    rw [solveGroups_single schema hn, compileGroups_single hn, ih hrest]

theorem coherent_solveGroups {schema : Schema C} {tokens out : List (Token C)}
    (h : ∀ t ∈ tokens, t.Coherent) (hout : solveGroups schema tokens = .ok out) :
    ∀ t ∈ out, t.Coherent := by
  induction tokens using groups_induction generalizing out with
  | nil =>
    rw [solveGroups] at hout
    cases hout
    exact h
  | group t rest n hn _ ih =>
    obtain ⟨ht, hrest⟩ := List.forall_mem_cons.1 h
    rw [solveGroups_group schema hn] at hout
    obtain ⟨value, hv, hout⟩ := bind_eq_ok hout
    obtain ⟨others, ho, hout⟩ := bind_eq_ok hout
    cases hout
    obtain ⟨e, rfl, _⟩ :=
      resolved_of_compileTokens (fun u hu => hrest u (List.mem_of_mem_take hu)) hv
    have hothers := ih (fun u hu => hrest u (List.mem_of_mem_drop hu)) ho
    exact List.forall_mem_cons.2 ⟨ht, List.forall_mem_cons.2 ⟨Token.coherent_resolved e, hothers⟩⟩
  | single t rest hn ih =>
    obtain ⟨ht, hrest⟩ := List.forall_mem_cons.1 h
    rw [solveGroups_single schema hn] at hout
    obtain ⟨others, ho, hout⟩ := bind_eq_ok hout
    cases hout
    exact List.forall_mem_cons.2 ⟨ht, ih hrest ho⟩

/-- Lists of tokens as the passes leave them behind. -/
inductive Reachable : List (Token C) → Prop
  | tokenize (source : String) : Reachable (tokenize C source)
  | session (schema : Schema C) (source : String) (calls : List Call) :
      Reachable ((Session.start source).run schema calls).1.tokens
  | leaves (schema : Schema C) (source : String) {tokens out : List (Token C)} :
      Reachable tokens → resolveLeaves schema source tokens = .ok out → Reachable out
  | groups (schema : Schema C) {tokens out : List (Token C)} :
      Reachable tokens → solveGroups schema tokens = .ok out → Reachable out
  | inside {tokens inner : List (Token C)} : Reachable tokens → inner <:+: tokens → Reachable inner
  | reduce (r : Reduction) {tokens : List (Token C)} : Reachable tokens → Reachable (r.apply tokens)

namespace Session

variable {schema : Schema C} {s : Session C}

theorem coherent_tokenize (h : ∀ t ∈ s.tokens, t.Coherent) :
    ∀ t ∈ s.tokenize.tokens, t.Coherent := by
  obtain ⟨source, _ | tokens | token⟩ := s
  · exact EventCuts.coherent_tokenize source
  · exact h
  · exact h

theorem coherent_resolveToken (h : ∀ t ∈ s.tokens, t.Coherent) :
    ∀ t ∈ (s.resolveToken schema).1.tokens, t.Coherent := by
  have hready := coherent_tokenize h
  have hcompiled :
      ∀ t, (compileTokens schema s.source s.tokenize.tokens).result = .ok t → t.Coherent := by
    intro t ht
    obtain ⟨e, rfl, _⟩ := resolved_of_compileTokens hready ht
    exact Token.coherent_resolved e
  obtain ⟨source, _ | tokens | token⟩ := s
  · simp only [resolveToken]
    split
    · next t ht => exact List.forall_mem_singleton.2 (hcompiled t ht)
    · exact hready
  · simp only [resolveToken]
    split
    · next t ht => exact List.forall_mem_singleton.2 (hcompiled t ht)
    · exact hready
  · exact h

theorem coherent_call (h : ∀ t ∈ s.tokens, t.Coherent) (c : Call) :
    ∀ t ∈ (s.call schema c).1.tokens, t.Coherent := by
  cases c with
  | setSource source => exact nofun
  | tokenize => exact coherent_tokenize h
  | tokens => exact h
  | source => exact h
  | resolve => exact coherent_resolveToken h
  | resolveToken => exact coherent_resolveToken h

theorem coherent_run (h : ∀ t ∈ s.tokens, t.Coherent) (calls : List Call) :
    ∀ t ∈ (s.run schema calls).1.tokens, t.Coherent := by
  induction calls generalizing s with
  | nil => exact h
  | cons c calls ih => exact ih (coherent_call h c)

end Session

theorem coherent_of_reachable {tokens : List (Token C)} (h : Reachable tokens) :
    ∀ t ∈ tokens, t.Coherent := by
  induction h with
  | tokenize source => exact coherent_tokenize source
  | session schema source calls =>
    exact Session.coherent_run (fun _ ht => absurd ht List.not_mem_nil) calls
  | leaves schema source _ hout ih => exact coherent_resolveLeaves ih hout
  | groups schema _ hout ih => exact coherent_solveGroups ih hout
  | inside _ hinner ih => exact fun t ht => ih t (hinner.subset ht)
  | reduce r _ ih => exact Reduction.coherent_apply r ih

theorem Token.coherent_iff {t : Token C} :
    t.Coherent ↔
      (t.value.isSome = true ↔ t.kind = .resolved .scalar ∨ t.kind = .resolved .vector) ∧
      ∀ e, t.value = some e →
        (t.kind = .resolved .vector ↔ e.shape = .vector) ∧ t.text = e.name := by
  obtain ⟨kind, text, _ | e⟩ := t
  · have hkind :
        kind.isResolved = false ↔ ¬ (kind = .resolved .scalar ∨ kind = .resolved .vector) := by
      rcases kind with _ | _ | _ | _ | _ | _ | _ | ⟨_ | _⟩ | _ <;> simp [Kind.isResolved]
    simp only [Coherent, isResolved, hkind, Option.isSome_none, reduceCtorEq, Bool.false_eq_true,
      false_iff, IsEmpty.forall_iff, implies_true, and_true]
  · constructor
    · rintro ⟨hkind, htext⟩
      dsimp only at hkind htext
      subst hkind
      refine ⟨⟨fun _ => ?_, fun _ => rfl⟩, ?_⟩
      · cases e.shape with
        | scalar => exact .inl rfl
        | vector => exact .inr rfl
      · intro x hx
        obtain rfl : e = x := Option.some.inj hx
        exact ⟨by rw [Kind.resolved.injEq], htext⟩
    · rintro ⟨hresolved, hvalue⟩
      obtain ⟨hvector, htext⟩ := hvalue e rfl
      refine ⟨?_, htext⟩
      rcases hresolved.1 rfl with hscalar | hkind
      · cases hshape : e.shape with
        | scalar => exact hscalar
        | vector => exact hvector.2 hshape
      · exact hvector.1 hkind ▸ hkind

/-- A token holds an expression exactly if its kind says so, is of its shape and bears its name. -/
theorem value_iff_of_reachable {tokens : List (Token C)} (h : Reachable tokens) :
    ∀ t ∈ tokens,
      (t.value.isSome = true ↔ t.kind = .resolved .scalar ∨ t.kind = .resolved .vector) ∧
        ∀ e, t.value = some e →
          (t.kind = .resolved .vector ↔ e.shape = .vector) ∧ t.text = e.name :=
  fun t ht => Token.coherent_iff.1 (coherent_of_reachable h t ht)

theorem value_iff_of_reachable_signed :
    ∃ leaves t, resolveLeaves VariableTable.ofColumn.schema "-(v)"
        (Reduction.signs.apply (tokenize _ "-(v)")) = .ok leaves ∧
      Reduction.prefixes.apply (Reduction.parentheses.apply leaves) = [t] ∧
      t.kind = .resolved .vector ∧ t.text = "-((v))" ∧ Reachable [t] ∧
      ∀ u ∈ [t],
        (u.value.isSome = true ↔ u.kind = .resolved .scalar ∨ u.kind = .resolved .vector) ∧
          ∀ e, u.value = some e →
            (u.kind = .resolved .vector ↔ e.shape = .vector) ∧ u.text = e.name := by
  have hlexemes : Lexeme.ofSource "-(v)" =
      [⟨.ambiguous .minus, "-"⟩, .opening .round, ⟨.identifier, "v"⟩, .closing .round] := by
    decide +kernel
  obtain ⟨leaves, hleaves, t, ht, hkind, htext⟩ : ∃ leaves,
      resolveLeaves VariableTable.ofColumn.schema "-(v)"
        (Reduction.signs.apply (tokenize _ "-(v)")) = .ok leaves ∧
      ∃ t, Reduction.prefixes.apply (Reduction.parentheses.apply leaves) = [t] ∧
        t.kind = .resolved .vector ∧ t.text = "-((v))" := by
    rw [tokenize, hlexemes]
    exact ⟨_, rfl, _, rfl, rfl, rfl⟩
  have hreach : Reachable [t] :=
    ht ▸ .reduce _ (.reduce _ (.leaves _ _ (.reduce _ (.tokenize _)) hleaves))
  exact ⟨leaves, t, hleaves, ht, hkind, htext, hreach, value_iff_of_reachable hreach⟩

end EventCuts
