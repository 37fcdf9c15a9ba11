import EventCuts.Proofs.Standing

/-!
# Coherent tokens

The kind, the text and the expression of a token agree at every stage of a compilation: when
the leaves are resolved, after each reduction, and when the groups are compiled. So the token
that a compilation ends with is the stand-in of an expression that bears the source as its name.
-/

namespace EventCuts

variable {C : Type}

namespace Token

theorem coherent_ofLexeme {l : Lexeme} (h : l.kind.isResolved = false) :
    (ofLexeme l : Token C).Coherent := h

theorem Coherent.eq_resolved {t : Token C} (h : t.Coherent) (hr : t.isResolved = true) :
    ∃ e, t = resolved e := by
  obtain ⟨kind, text, _ | e⟩ := t
  · have hnot : isResolved (⟨kind, text, none⟩ : Token C) = false := h
    rw [hr] at hnot
    cases hnot
  · obtain ⟨rfl, rfl⟩ := h
    exact ⟨e, rfl⟩

theorem Coherent.value_of_kind {t : Token C} {s : Shape} (h : t.Coherent)
    (hk : t.kind = .resolved s) : ∃ e, t.value = some e ∧ e.shape = s := by
  have hr : t.isResolved = true := by
    rw [isResolved, hk]
    rfl
  obtain ⟨e, rfl⟩ := h.eq_resolved hr
  exact ⟨e, rfl, Kind.resolved.inj hk⟩

theorem Coherent.kind_of_value {t : Token C} {e : Expr C} (h : t.Coherent)
    (hv : t.value = some e) : t.kind = .resolved e.shape := by
  rw [Coherent, hv] at h
  exact h.1

end Token

theorem Kind.isResolved_after (kind : Kind) (previous : Option Kind) :
    (kind.after previous).isResolved = kind.isResolved := by
  cases kind with
  | ambiguous sign =>
    simp only [after]
    split
    · rfl
    · rfl
    · split <;> rfl
  | _ => rfl

namespace Reduction

variable {stack tokens : List (Token C)} {t : Token C}

theorem coherent_pushParenthesis (h : ∀ u ∈ t :: stack, u.Coherent) :
    ∀ u ∈ pushParenthesis stack t, u.Coherent := by
  unfold pushParenthesis
  split
  · next inner opener below =>
    split
    · have hinner := h inner (by simp)
      refine List.forall_mem_cons.2 ⟨Token.coherent_rename _ hinner, ?_⟩
      exact fun u hu => h u (by simp [hu])
    · exact h
  · exact h

theorem coherent_pushSubscript (h : ∀ u ∈ t :: stack, u.Coherent) :
    ∀ u ∈ pushSubscript stack t, u.Coherent := by
  unfold pushSubscript
  split
  · next index opener vector below =>
    have hbelow : ∀ u ∈ below, u.Coherent := fun u hu => h u (by simp [hu])
    split
    · split
      · next entry _ => exact List.forall_mem_cons.2 ⟨Token.coherent_resolved entry, hbelow⟩
      · exact List.forall_mem_cons.2 ⟨h t (by simp), hbelow⟩
    · exact h
  · exact h

theorem exists_subscripted {vector index : Token C} (hv : vector.Coherent) (hi : index.Coherent)
    (hvector : vector.kind = .resolved .vector) (hindex : index.kind = .resolved .scalar)
    (opener close : Token C) :
    ∃ v i e, vector.value = some v ∧ index.value = some i ∧ v.subscript i = some e ∧
      subscripted vector opener index close =
        some (e.rename (Token.sourceText [vector, opener, index, close])) := by
  obtain ⟨v, hvalue, hvshape⟩ := hv.value_of_kind hvector
  obtain ⟨i, hposition, hishape⟩ := hi.value_of_kind hindex
  obtain ⟨e, he, _⟩ := Expr.exists_subscript hvshape hishape
  refine ⟨v, i, e, hvalue, hposition, he, ?_⟩
  simp [subscripted, hvalue, hposition, he]

theorem coherent_pushSign (h : ∀ u ∈ t :: stack, u.Coherent) :
    ∀ u ∈ pushSign stack t, u.Coherent := by
  obtain ⟨ht, hstack⟩ := List.forall_mem_cons.1 h
  refine List.forall_mem_cons.2 ⟨?_, hstack⟩
  obtain ⟨kind, text, _ | e⟩ := t
  · exact (Kind.isResolved_after kind _).trans ht
  · obtain ⟨rfl, htext⟩ := ht
    exact ⟨rfl, htext⟩

theorem coherent_applyPrefixes (h : ∀ u ∈ stack, u.Coherent) (e : Expr C) :
    ∀ u ∈ applyPrefixes stack e, u.Coherent := by
  induction stack generalizing e with
  | nil => exact List.forall_mem_singleton.2 (Token.coherent_resolved e)
  | cons top below ih =>
    unfold applyPrefixes
    split
    · exact ih (List.forall_mem_cons.1 h).2 _
    · exact List.forall_mem_cons.2 ⟨Token.coherent_resolved e, h⟩

theorem coherent_pushPrefixed (h : ∀ u ∈ t :: stack, u.Coherent) :
    ∀ u ∈ pushPrefixed stack t, u.Coherent := by
  rcases pushPrefixed_cases stack t with hp | ⟨e, _, hp⟩
  · rwa [hp]
  · rw [hp]
    exact coherent_applyPrefixes (List.forall_mem_cons.1 h).2 e

theorem coherent_pushOperand (ops : List BinaryOp) (h : ∀ u ∈ t :: stack, u.Coherent) :
    ∀ u ∈ pushOperand ops stack t, u.Coherent := by
  obtain ⟨operator, left, below, _, _, _, rfl, _, _, _, _, hp⟩ | ⟨hp, _⟩ :=
    pushOperand_cases ops stack t
  · rw [hp]
    exact List.forall_mem_cons.2 ⟨Token.coherent_resolved _, fun u hu => h u (by simp [hu])⟩
  · rwa [hp]

theorem coherent_sweep {push : List (Token C) → Token C → List (Token C)}
    (hpush : ∀ stack t, (∀ u ∈ t :: stack, u.Coherent) → ∀ u ∈ push stack t, u.Coherent)
    (h : ∀ u ∈ tokens, u.Coherent) : ∀ u ∈ sweep push tokens, u.Coherent := by
  have hstep : ∀ stack t rest, (∀ u ∈ stack ++ t :: rest, u.Coherent) →
      ∀ u ∈ push stack t ++ rest, u.Coherent := by
    intro stack t rest h
    obtain ⟨hstack, htrest⟩ := List.forall_mem_append.1 h
    obtain ⟨ht, hrest⟩ := List.forall_mem_cons.1 htrest
    exact List.forall_mem_append.2 ⟨hpush stack t (List.forall_mem_cons.2 ⟨ht, hstack⟩), hrest⟩
  have hend := sweep_relation (P := fun stack rest => ∀ u ∈ stack ++ rest, u.Coherent) hstep h
  intro u hu
  exact hend u (List.mem_append_left [] (List.mem_reverse.2 hu))

theorem coherent_apply (r : Reduction) (h : ∀ u ∈ tokens, u.Coherent) :
    ∀ u ∈ r.apply tokens, u.Coherent := by
  cases r with
  | parentheses => exact coherent_sweep (fun _ _ => coherent_pushParenthesis) h
  | subscripts => exact coherent_sweep (fun _ _ => coherent_pushSubscript) h
  | signs => exact coherent_sweep (fun _ _ => coherent_pushSign) h
  | prefixes => exact coherent_sweep (fun _ _ => coherent_pushPrefixed) h
  | operators ops => exact coherent_sweep (fun _ _ => coherent_pushOperand ops) h

theorem coherent_applyAll (reductions : List Reduction) (h : ∀ u ∈ tokens, u.Coherent) :
    ∀ u ∈ applyAll reductions tokens, u.Coherent := by
  induction reductions generalizing tokens with
  | nil => exact h
  | cons r rest ih => exact ih (coherent_apply r h)

end Reduction

theorem resolved_of_condense {source : String} {tokens : List (Token C)} {t : Token C}
    (h : ∀ u ∈ tokens, u.Coherent) (ht : (condense source tokens).result = .ok t) :
    ∃ e, t = Token.resolved e ∧ e.name = source := by
  obtain ⟨u, hu, hr, rfl⟩ := (condense_ok_iff source tokens t).1 ht
  have hcoherent : u.Coherent :=
    Reduction.coherent_applyAll Reduction.pipeline h u (hu ▸ List.mem_singleton_self u)
  obtain ⟨e, rfl⟩ := hcoherent.eq_resolved hr
  exact ⟨e.rename source, rfl, rfl⟩

theorem coherent_compileGroups {tokens out : List (Token C)} (h : ∀ u ∈ tokens, u.Coherent)
    (hout : (compileGroups tokens).result = .ok out) : ∀ u ∈ out, u.Coherent := by
  induction tokens using groups_induction generalizing out with
  | nil =>
    rw [compileGroups_nil_result] at hout
    cases hout
    exact h
  | group t rest n hn ihinside ihbehind =>
    obtain ⟨ht, hrest⟩ := List.forall_mem_cons.1 h
    obtain ⟨groups, value, others, hg, hv, ho, rfl⟩ := (compileGroups_group_iff hn).1 hout
    have hgroups := ihinside (fun u hu => hrest u (List.mem_of_mem_take hu)) hg
    have hothers := ihbehind (fun u hu => hrest u (List.mem_of_mem_drop hu)) ho
    obtain ⟨e, rfl, _⟩ := resolved_of_condense hgroups hv
    exact List.forall_mem_cons.2 ⟨ht, List.forall_mem_cons.2 ⟨Token.coherent_resolved e, hothers⟩⟩
  | single t rest hn ih =>
    obtain ⟨ht, hrest⟩ := List.forall_mem_cons.1 h
    obtain ⟨others, ho, rfl⟩ := (compileGroups_single_iff hn).1 hout
    exact List.forall_mem_cons.2 ⟨ht, ih hrest ho⟩

theorem Lexeme.Spelled.isResolved {l : Lexeme} (h : l.Spelled) : l.kind.isResolved = false := by
  cases hk : l.kind with
  | resolved s => exact absurd hk (h.not_resolved (.inl rfl) s)
  | _ => rfl

theorem coherent_tokenize (source : String) : ∀ t ∈ tokenize C source, t.Coherent := by
  intro t ht
  obtain ⟨l, hl, rfl⟩ := List.mem_map.1 ht
  exact Token.coherent_ofLexeme (Lexeme.spelled_of_mem_cut hl).isResolved

theorem resolveLeaf_cases {schema : Schema C} {source : String} {offset : Nat} {t leaf : Token C}
    (h : resolveLeaf schema source offset t = .ok leaf) :
    (leaf = t ∧ t.kind ≠ .identifier ∧ t.kind ≠ .number) ∨
      ∃ e, leaf = Token.resolved e ∧ e.name = t.text := by
  unfold resolveLeaf at h
  split at h
  · split at h
    · cases h
      exact .inr ⟨_, rfl, rfl⟩
    · cases h
  · split at h
    · cases h
      exact .inr ⟨_, rfl, rfl⟩
    · cases h
  · next hidentifier hnumber =>
    cases h
    exact .inl ⟨rfl, hidentifier, hnumber⟩

theorem coherent_resolveLeaf {schema : Schema C} {source : String} {offset : Nat} {t leaf : Token C}
    (h : t.Coherent) (hleaf : resolveLeaf schema source offset t = .ok leaf) : leaf.Coherent := by
  obtain ⟨rfl, _⟩ | ⟨e, rfl, _⟩ := resolveLeaf_cases hleaf
  · exact h
  · exact Token.coherent_resolved e

theorem leaves_of_resolveLeavesFrom {schema : Schema C} {source : String} {offset : Nat}
    {tokens leaves : List (Token C)}
    (h : resolveLeavesFrom schema source offset tokens = .ok leaves) :
    List.Forall₂ (fun t leaf => ∃ offset, resolveLeaf schema source offset t = .ok leaf)
      tokens leaves := by
  induction tokens generalizing offset leaves with
  | nil =>
    cases h
    exact .nil
  | cons t rest ih =>
    rw [resolveLeavesFrom] at h
    cases hleaf : resolveLeaf schema source offset t with
    | error e =>
      rw [hleaf] at h
      cases h
    | ok leaf =>
      cases hothers : resolveLeavesFrom schema source (offset + t.text.utf8ByteSize) rest with
      | error e =>
        rw [hleaf, hothers] at h
        cases h
      | ok others =>
        rw [hleaf, hothers] at h
        cases h
        exact .cons ⟨offset, hleaf⟩ (ih hothers)

theorem exists_of_forall₂ {α β : Type} {R : α → β → Prop} {as : List α} {bs : List β}
    (h : List.Forall₂ R as bs) {b : β} (hb : b ∈ bs) : ∃ a ∈ as, R a b := by
  obtain ⟨i, hi, rfl⟩ := List.getElem_of_mem hb
  have hlt : i < as.length := h.length_eq ▸ hi
  exact ⟨as[i], List.getElem_mem hlt, h.get hlt hi⟩

theorem coherent_resolveLeaves {schema : Schema C} {source : String}
    {tokens leaves : List (Token C)} (h : ∀ t ∈ tokens, t.Coherent)
    (hl : resolveLeaves schema source tokens = .ok leaves) :
    ∀ t ∈ leaves, t.Coherent := by
  intro leaf hleaf
  obtain ⟨t, ht, _, hresolve⟩ := exists_of_forall₂ (leaves_of_resolveLeavesFrom hl) hleaf
  exact coherent_resolveLeaf (h t ht) hresolve

theorem resolved_of_compileTokens {schema : Schema C} {source : String} {tokens : List (Token C)}
    {t : Token C} (h : ∀ u ∈ tokens, u.Coherent)
    (ht : (compileTokens schema source tokens).result = .ok t) :
    ∃ e, t = Token.resolved e ∧ e.name = source := by
  simp only [compileTokens, Logged.bind_ok_iff, Logged.ofExcept] at ht
  obtain ⟨_, _, _, _, leaves, hl, groups, hg, ht⟩ := ht
  exact resolved_of_condense (coherent_compileGroups (coherent_resolveLeaves h hl) hg) ht

end EventCuts
