import EventCuts.Proofs.Brackets
import EventCuts.Proofs.Standing

/-!
# What compiles is derivable

Each reduction applies a production to the lexemes that its tokens stand for, so the one
token left in the end stands for a derivation of the whole text. Closing brackets that are
left over after the subscripts stay to the end, where they make the text unresolved: for
what compiles, all later reductions work on tokens without brackets.
-/

namespace EventCuts

variable {C : Type} {schema : Schema C}

theorem Reads.operand_inv {level : Level} {t : Token C} {ts : List (Token C)}
    {ls : List Lexeme} (h : Reads schema level (t :: ts) ls) (ht : t.isResolved = true)
    (hts : ∀ u ∈ ts.head?, ∀ b, u.kind ≠ .closing b) :
    ∃ as rest, ls = as ++ rest ∧ Stands schema level t as ∧ Reads schema level ts rest := by
  obtain ⟨as, rest, hls, hr, hs | ⟨_, c, hc, b, hb⟩⟩ := h.value_inv ht
  · exact ⟨as, rest, hls, hs, hr⟩
  · exact absurd hb (hts c hc b)

theorem Reads.inner_inv {level : Level} {t : Token C} {ts : List (Token C)} {ls : List Lexeme}
    (h : Reads schema level (t :: ts) ls) (ht : t.isResolved = true) :
    ∃ as rest, ls = as ++ rest ∧ Stands schema .disjunction t as ∧ Reads schema level ts rest := by
  obtain ⟨as, rest, hls, hr, hs | ⟨hs, _⟩⟩ := h.value_inv ht
  · exact ⟨as, rest, hls, hs.mono level.rank_le, hr⟩
  · exact ⟨as, rest, hls, hs, hr⟩

namespace Reduction

theorem reads_parenthesis {level : Level} {opener inner close : Token C} {rest : List (Token C)}
    {ls : List Lexeme} (hc : close.kind = .closing .round) (ho : opener.kind = .opening .round)
    (hi : inner.isResolved = true) (name : String)
    (h : Reads schema level (opener :: inner :: close :: rest) ls) :
    Reads schema level (inner.rename name :: rest) ls := by
  obtain ⟨lo, _, rfl, _, hos, hom, h₁⟩ := h.mark_inv (Token.isResolved_eq_false (by simp [ho]))
  obtain ⟨as, _, rfl, ⟨e, term, hv, hk, hsh, hd⟩, h₂⟩ := h₁.inner_inv hi
  obtain ⟨lc, _, rfl, _, hcs, hcm, h₃⟩ := h₂.mark_inv (Token.isResolved_eq_false (by simp [hc]))
  obtain rfl := hos.opening (ho ▸ hom)
  obtain rfl := hcs.closing (hc ▸ hcm)
  have hs : Stands schema .primary inner (.opening .round :: (as ++ [.closing .round])) :=
    ⟨e, .group term, hv, hk, hsh, .group hd⟩
  simpa using Reads.operand ((hs.rename name).mono (Nat.zero_le _)) h₃

theorem reads_parentheses {tokens : List (Token C)} {ls : List Lexeme}
    (h : Reads schema .primary tokens ls) :
    Reads schema .primary (sweep pushParenthesis tokens) ls := by
  refine sweep_invariant (P := fun tokens => Reads schema .primary tokens ls) ?_ h
  intro stack t rest h
  simp only [pushParenthesis]
  split
  · next inner opener below =>
    split
    · next hm =>
      obtain ⟨ht, ho, hi⟩ := hm
      simp only [List.reverse_cons, List.append_assoc, List.singleton_append] at h ⊢
      exact h.replace (by simp [ho]) fun bs => reads_parenthesis ht ho hi _
    · simpa using h
  · simpa using h

theorem reads_subscript {vector opener index close : Token C} {rest : List (Token C)}
    {ls : List Lexeme} (hc : close.kind = .closing .square)
    (hv : vector.kind = .resolved .vector) (ho : opener.kind = .opening .square)
    (hi : index.kind = .resolved .scalar)
    (h : Reads schema .subscripted (vector :: opener :: index :: close :: rest) ls) :
    ∃ e, subscripted vector opener index close = some e ∧
      Reads schema .subscripted (Token.resolved e :: rest) ls := by
  obtain ⟨as, _, rfl, ⟨f, v, hfv, hfk, hfs, hdv⟩, h₁⟩ :=
    h.operand_inv (Token.isResolved_of_kind hv) (by simp [ho])
  obtain ⟨lo, _, rfl, _, hos, hom, h₂⟩ := h₁.mark_inv (Token.isResolved_eq_false (by simp [ho]))
  obtain ⟨bs, _, rfl, ⟨g, i, hgv, hgk, hgs, hdi⟩, h₃⟩ :=
    h₂.inner_inv (Token.isResolved_of_kind hi)
  obtain ⟨lc, _, rfl, _, hcs, hcm, h₄⟩ := h₃.mark_inv (Token.isResolved_eq_false (by simp [hc]))
  obtain rfl := hos.opening (ho ▸ hom)
  obtain rfl := hcs.closing (hc ▸ hcm)
  have hf : f.shape = .vector := by simpa [hv] using hfk.symm
  have hg : g.shape = .scalar := by simpa [hi] using hgk.symm
  obtain ⟨e, he, hshape⟩ := Expr.exists_subscript hf hg
  refine ⟨e.rename (Token.sourceText [vector, opener, index, close]), ?_, ?_⟩
  · simp [subscripted, hfv, hgv, he]
  · have hv' := hdv.primary_of_vector (hfs ▸ hf)
    have hs : Stands schema .subscripted
        (Token.resolved (e.rename (Token.sourceText [vector, opener, index, close])))
        (as ++ .opening .square :: (bs ++ [.closing .square])) :=
      ⟨_, .entry v i, rfl, rfl, hshape, .entry hv' hdi (hfs ▸ hf) (hgs ▸ hg)⟩
    simpa using Reads.operand hs h₄

theorem reads_subscripts {tokens : List (Token C)} {ls : List Lexeme}
    (h : Reads schema .subscripted tokens ls) :
    Reads schema .subscripted (sweep pushSubscript tokens) ls := by
  refine sweep_invariant (P := fun tokens => Reads schema .subscripted tokens ls) ?_ h
  intro stack t rest h
  simp only [pushSubscript]
  split
  · next index opener vector below =>
    split
    · next hm =>
      obtain ⟨ht, hv, ho, hi⟩ := hm
      simp only [List.reverse_cons, List.append_assoc, List.singleton_append] at h ⊢
      have hnc : ∀ b, vector.kind ≠ .closing b := by simp [hv]
      -- the tokens hold a vector and a scalar, so the subscript is never dropped
      obtain ⟨as, bs, _, _, hy⟩ := h.split hnc
      obtain ⟨e, he, _⟩ := reads_subscript ht hv ho hi hy
      rw [he]
      simp only [List.reverse_cons, List.append_assoc, List.singleton_append]
      refine h.replace hnc fun bs hb => ?_
      obtain ⟨e', he', hr⟩ := reads_subscript ht hv ho hi hb
      obtain rfl : e = e' := by simpa [he] using he'
      exact hr
    · simpa using h
  · simpa using h

theorem reads_signs {level : Level} {tokens : List (Token C)} {ls : List Lexeme}
    (h : Reads schema level tokens ls) : Reads schema level (sweep pushSign tokens) ls := by
  refine sweep_invariant (P := fun tokens => Reads schema level tokens ls) ?_ h
  intro stack t rest h
  simp only [pushSign, List.reverse_cons, List.append_assoc, List.singleton_append]
  by_cases ha : ∃ sign, t.kind = .ambiguous sign
  · obtain ⟨sign, hk⟩ := ha
    refine h.replace (by simp [hk]) fun bs hb => ?_
    obtain ⟨l, ls, rfl, hv, hs, hm, hr⟩ := hb.mark_inv (Token.isResolved_eq_false (by simp [hk]))
    rw [hk] at hm ⊢
    exact .mark hv hs (hm.after _) hr
  · rw [Kind.after_eq_self fun sign hk => ha ⟨sign, hk⟩]
    exact h

theorem reads_applyPrefixes {stack rest : List (Token C)} {e : Expr C} {ls : List Lexeme}
    (h : Reads schema .signed (stack.reverse ++ Token.resolved e :: rest) ls)
    (hrest : ∀ u ∈ rest.head?, ∀ b, u.kind ≠ .closing b) :
    Reads schema .signed ((applyPrefixes stack e).reverse ++ rest) ls := by
  induction stack generalizing e with
  | nil => exact h
  | cons top below ih =>
    simp only [List.reverse_cons, List.append_assoc, List.singleton_append] at h
    cases hk : top.kind with
    | prefixOp op =>
      simp only [applyPrefixes, hk]
      refine ih (h.replace (by simp [hk]) fun bs hb => ?_)
      obtain ⟨l, _, rfl, _, hs, hm, h₁⟩ := hb.mark_inv (Token.isResolved_eq_false (by simp [hk]))
      obtain ⟨as, _, rfl, ⟨f, term, hv, hf, hsh, hd⟩, h₂⟩ := h₁.operand_inv rfl hrest
      obtain rfl := hs.prefixed (hk ▸ hm)
      cases hv
      have hu : (e.unary op).shape = (Term.prefixed op term).shape schema :=
        (e.shape_unary op).trans hsh
      exact .operand ⟨_, _, rfl, rfl, hu, .prefixed op hd⟩ h₂
    | _ => simpa [applyPrefixes, hk] using h

theorem reads_prefixes {tokens : List (Token C)} {ls : List Lexeme}
    (h : Reads schema .signed tokens ls) (hc : ∀ t ∈ tokens, ∀ b, t.kind ≠ .closing b) :
    Reads schema .signed (sweep pushPrefixed tokens) ls := by
  have hstep : ∀ stack t rest, Reads schema .signed (stack.reverse ++ t :: rest) ls ∧
      (∀ u ∈ t :: rest, ∀ b, u.kind ≠ .closing b) →
      Reads schema .signed ((pushPrefixed stack t).reverse ++ rest) ls ∧
        ∀ u ∈ rest, ∀ b, u.kind ≠ .closing b := by
    intro stack t rest ⟨h, hc⟩
    refine ⟨?_, fun u hu => hc u (List.mem_cons_of_mem t hu)⟩
    rcases pushPrefixed_cases stack t with hp | ⟨e, hv, hp⟩
    · simpa [hp] using h
    · have hhead : ∀ u ∈ rest.head?, ∀ b, u.kind ≠ .closing b :=
        fun u hu => hc u (List.mem_cons_of_mem t (List.mem_of_mem_head? hu))
      rw [hp]
      refine reads_applyPrefixes (h.replace (hc t List.mem_cons_self) fun bs hb => ?_) hhead
      obtain ⟨as, _, rfl, ⟨f, term, hf, _, hsh, hd⟩, hr⟩ :=
        hb.operand_inv (hb.isResolved_of_value List.mem_cons_self hv) hhead
      obtain rfl : e = f := by simpa [hv] using hf
      exact .operand ⟨e, term, rfl, rfl, hsh, hd⟩ hr
  have hrel := sweep_relation (P := fun stack rest =>
    Reads schema .signed (stack.reverse ++ rest) ls ∧ ∀ u ∈ rest, ∀ b, u.kind ≠ .closing b)
    hstep ⟨h, hc⟩
  simpa using hrel.1

theorem reads_pushOperand {level : Level} {ops : List BinaryOp}
    (hops : ∀ op ∈ ops, op.level = level) {stack rest : List (Token C)} {t : Token C}
    {as bs : List Lexeme} (hs : Reads schema level stack.reverse as)
    (hr : Reads schema level.tighter (t :: rest) bs)
    (hc : ∀ u ∈ t :: rest, ∀ b, u.kind ≠ .closing b) :
    ∃ cs ds, as ++ bs = cs ++ ds ∧ Reads schema level (pushOperand ops stack t).reverse cs ∧
      Reads schema level.tighter rest ds := by
  -- The operands on the stack are chains of the level, those ahead bind tighter.
  have htight : level.tighter.rank ≤ level.rank := by
    have := level.rank_tighter
    omega
  have hhead : ∀ u ∈ rest.head?, ∀ b, u.kind ≠ .closing b :=
    fun u hu => hc u (List.mem_cons_of_mem t (List.mem_of_mem_head? hu))
  -- What no operator of the level joins stays on the stack as it is.
  have hpush : ∃ cs ds, as ++ bs = cs ++ ds ∧ Reads schema level (t :: stack).reverse cs ∧
      Reads schema level.tighter rest ds := by
    rw [List.reverse_cons]
    by_cases ht : t.isResolved = true
    · obtain ⟨cs, ds, rfl, hst, hr⟩ := hr.operand_inv ht hhead
      refine ⟨as ++ cs, ds, (List.append_assoc ..).symm, hs.append ?_, hr⟩
      simpa using Reads.operand (hst.mono htight) .nil
    · obtain ⟨l, ds, rfl, hv, hsp, hm, hr⟩ := hr.mark_inv (by simpa using ht)
      exact ⟨as ++ [l], ds, by simp, hs.append (.mark hv hsp hm .nil), hr⟩
  simp only [pushOperand]
  split
  · next right operator left below hright =>
    split
    · next op f hop hleft =>
      split
      · next hmem =>
        simp only [List.reverse_cons, List.append_assoc, List.singleton_append] at hs
        have hlr : left.isResolved = true := hs.isResolved_of_value (by simp) hleft
        obtain ⟨as₀, _, rfl, hbelow, hs⟩ := hs.split (Token.not_closing_of_isResolved hlr)
        obtain ⟨as₁, _, rfl, ⟨f', l, hf, _, hfs, hl⟩, hs⟩ := hs.operand_inv hlr (by simp [hop])
        obtain ⟨m, _, rfl, _, hsp, hm, hs⟩ :=
          hs.mark_inv (Token.isResolved_eq_false (by simp [hop]))
        obtain ⟨as₂, ds, rfl, ⟨g, r, hg, _, hgs, hrd⟩, hr⟩ :=
          hr.operand_inv (hr.isResolved_of_value List.mem_cons_self hright) hhead
        cases hs
        obtain rfl := hsp.binary (hop ▸ hm)
        obtain rfl : f' = f := by simpa [hleft] using hf.symm
        obtain rfl : g = right := by simpa [hright] using hg.symm
        have hshape : (Expr.binary op f' g).shape = (Term.binary op l r).shape schema := by
          rw [Expr.shape_join, hfs, hgs, Term.shape]
        refine ⟨as₀ ++ (as₁ ++ op.lexeme :: as₂), ds, by simp, ?_, hr⟩
        rw [List.reverse_cons]
        refine hbelow.append ?_
        have hst : Stands schema level (Token.resolved (Expr.binary op f' g))
            (as₁ ++ op.lexeme :: as₂) :=
          ⟨_, _, rfl, rfl, hshape, .binary op (hops op hmem) hl hrd⟩
        simpa using Reads.operand hst .nil
      · exact hpush
    · exact hpush
  · exact hpush

theorem reads_operators {level : Level} {ops : List BinaryOp}
    (hops : ∀ op ∈ ops, op.level = level) {tokens : List (Token C)} {ls : List Lexeme}
    (h : Reads schema level.tighter tokens ls) (hc : ∀ t ∈ tokens, ∀ b, t.kind ≠ .closing b) :
    Reads schema level (sweep (pushOperand ops) tokens) ls := by
  have hstep : ∀ stack t rest,
      (∃ as bs, ls = as ++ bs ∧ Reads schema level stack.reverse as ∧
        Reads schema level.tighter (t :: rest) bs) ∧ (∀ u ∈ t :: rest, ∀ b, u.kind ≠ .closing b) →
      (∃ as bs, ls = as ++ bs ∧ Reads schema level (pushOperand ops stack t).reverse as ∧
        Reads schema level.tighter rest bs) ∧ ∀ u ∈ rest, ∀ b, u.kind ≠ .closing b := by
    intro stack t rest ⟨⟨as, bs, hls, hs, hr⟩, hc⟩
    rw [hls]
    exact ⟨reads_pushOperand hops hs hr hc, fun u hu => hc u (List.mem_cons_of_mem t hu)⟩
  have hrel := sweep_relation (P := fun stack rest =>
    (∃ as bs, ls = as ++ bs ∧ Reads schema level stack.reverse as ∧
      Reads schema level.tighter rest bs) ∧ ∀ u ∈ rest, ∀ b, u.kind ≠ .closing b)
    hstep ⟨⟨[], ls, rfl, .nil, h⟩, hc⟩
  obtain ⟨⟨as, bs, rfl, hs, hr⟩, _⟩ := hrel
  cases hr
  simpa using hs

/-! Closing brackets survive the reductions that come after the subscripts. -/

section Closing

variable {b : Bracket} {c t : Token C} {stack tokens : List (Token C)}

theorem mem_sweep {push : List (Token C) → Token C → List (Token C)}
    (hpush : ∀ stack t, c ∈ t :: stack → c ∈ push stack t) (h : c ∈ tokens) :
    c ∈ sweep push tokens := by
  refine sweep_invariant (P := fun tokens => c ∈ tokens) ?_ h
  intro stack t rest h
  have hmem : c ∈ t :: stack ∨ c ∈ rest := by simpa [or_left_comm, or_assoc] using h
  rcases hmem with h | h
  · simp [hpush stack t h]
  · simp [h]

theorem closing_mem_applyPrefixes (hc : c.kind = .closing b) (h : c ∈ stack) (e : Expr C) :
    c ∈ applyPrefixes stack e := by
  induction stack generalizing e with
  | nil => cases h
  | cons top below ih =>
    cases hk : top.kind with
    | prefixOp op =>
      have hne : c ≠ top := by
        intro he
        simp [← he, hc] at hk
      simpa [applyPrefixes, hk] using ih ((List.mem_cons.1 h).resolve_left hne) _
    | _ => simpa [applyPrefixes, hk] using List.mem_cons_of_mem _ h

theorem closing_mem_pushPrefixed (hc : c.kind = .closing b) (hv : c.value = none)
    (h : c ∈ t :: stack) : c ∈ pushPrefixed stack t := by
  rcases pushPrefixed_cases stack t with hp | ⟨e, ht, hp⟩
  · rwa [hp]
  · have hne : c ≠ t := by
      intro he
      simp [← he, hv] at ht
    rw [hp]
    exact closing_mem_applyPrefixes hc ((List.mem_cons.1 h).resolve_left hne) e

theorem closing_mem_pushOperand {ops : List BinaryOp} (hc : c.kind = .closing b)
    (hv : c.value = none) (h : c ∈ t :: stack) : c ∈ pushOperand ops stack t := by
  obtain ⟨operator, left, below, op, _, _, rfl, hop, _, hleft, hright, hp⟩ | ⟨hp, _⟩ :=
    pushOperand_cases ops stack t
  · have ht : c ≠ t := by
      intro he
      simp [← he, hv] at hright
    have ho : c ≠ operator := by
      intro he
      simp [← he, hc] at hop
    have hl : c ≠ left := by
      intro he
      simp [← he, hv] at hleft
    rw [hp]
    exact List.mem_cons_of_mem _ (by simpa [ht, ho, hl] using h)
  · rwa [hp]

theorem closing_mem_operators (hc : c.kind = .closing b) (hv : c.value = none) (h : c ∈ tokens)
    (levels : List (List BinaryOp)) : c ∈ applyAll (levels.map operators) tokens := by
  induction levels generalizing tokens with
  | nil => exact h
  | cons ops levels ih => exact ih (mem_sweep (fun _ _ => closing_mem_pushOperand hc hv) h)

end Closing

theorem reads_levels {levels : List (List BinaryOp)} {low high : Level}
    (hl : Climbs low levels high) {tokens : List (Token C)} {ls : List Lexeme}
    (h : Reads schema low tokens ls)
    (hc : ∀ c ∈ applyAll (levels.map operators) tokens, ∀ b, c.kind ≠ .closing b) :
    Reads schema high (applyAll (levels.map operators) tokens) ls := by
  induction levels generalizing low tokens with
  | nil =>
    obtain rfl : low = high := hl
    exact h
  | cons ops levels ih =>
    obtain ⟨level, rfl, hops, hl⟩ := hl
    have hfree : ∀ c ∈ tokens, ∀ b, c.kind ≠ .closing b := by
      intro c hmem b hk
      have hv := h.value_of_closing hmem hk
      exact hc c (closing_mem_operators hk hv hmem (ops :: levels)) b hk
    exact ih hl (reads_operators (fun op => (hops op).1) h hfree) hc

theorem reads_pipeline {tokens : List (Token C)} {u : Token C} {ls : List Lexeme}
    (h : Reads schema .primary tokens ls) (hu : applyAll pipeline tokens = [u])
    (hres : u.isResolved = true) : Stands schema .disjunction u ls := by
  rw [applyAll_pipeline] at hu
  have h₁ := reads_signs (reads_subscripts ((reads_parentheses h).mono (Nat.zero_le 1)))
  generalize sweep pushSign (sweep pushSubscript (sweep pushParenthesis tokens)) = signed at hu h₁
  have hend : ∀ c ∈ [u], ∀ b, c.kind ≠ .closing b := by
    intro c hmem b
    obtain rfl := List.mem_singleton.1 hmem
    exact Token.not_closing_of_isResolved hres b
  have hfree : ∀ c ∈ signed, ∀ b, c.kind ≠ .closing b := by
    intro c hmem b hk
    have hv := h₁.value_of_closing hmem hk
    have hp := mem_sweep (fun _ _ => closing_mem_pushPrefixed hk hv) hmem
    exact hend c (hu ▸ closing_mem_operators hk hv hp BinaryOp.precedence) b hk
  have h₂ := reads_prefixes (h₁.mono (Nat.le_succ 1)) hfree
  have h₃ := reads_levels climbs_precedence h₂ (hu ▸ hend)
  rw [hu] at h₃
  obtain ⟨as, _, rfl, hs, hr⟩ := h₃.operand_inv hres (by simp)
  cases hr
  simpa using hs

end Reduction

theorem compileGroups_head {t : Token C} {rest out : List (Token C)}
    (h : (compileGroups (t :: rest)).result = .ok out) : ∃ others, out = t :: others := by
  by_cases hn : ∃ n, groupLength t rest = some (n + 1)
  · obtain ⟨n, hn⟩ := hn
    obtain ⟨_, value, others, _, _, _, rfl⟩ := (compileGroups_group_iff hn).1 h
    exact ⟨_, rfl⟩
  · obtain ⟨others, _, rfl⟩ := (compileGroups_single_iff fun n hs => hn ⟨n, hs⟩).1 h
    exact ⟨_, rfl⟩

def Single (schema : Schema C) (l : Lexeme) (t : Token C) : Prop :=
  t.value = none ∧ l.Spelled ∧ l.MayBe t.kind ∨ Stands schema .primary t [l]

theorem single_of_leaf? {l : Lexeme} (hl : l.Spelled) {t : Token C}
    (h : leaf? schema l = some t) : Single schema l t := by
  obtain ⟨kind, text⟩ := l
  cases kind with
  | identifier =>
    obtain ⟨e, he, rfl⟩ := Option.map_eq_some_iff.1 h
    have hshape : e.shape = (Term.name text).shape schema := by simp [Term.shape, he]
    exact .inr ⟨_, .name text, rfl, rfl, hshape, .name he⟩
  | number =>
    obtain ⟨x, _, rfl⟩ := Option.map_eq_some_iff.1 h
    exact .inr ⟨_, .number text, rfl, rfl, rfl, .number text⟩
  | _ =>
    obtain rfl : Token.ofLexeme _ = t := Option.some.inj h
    exact .inl ⟨rfl, hl, .inl rfl⟩

theorem Reads.cons_single {t : Token C} {l : Lexeme} {ts : List (Token C)} {ls : List Lexeme}
    (ht : Single schema l t) (h : Reads schema .primary ts ls) :
    Reads schema .primary (t :: ts) (l :: ls) := by
  rcases ht with ⟨hv, hs, hm⟩ | ht
  · exact .mark hv hs hm h
  · exact .operand ht h

theorem reads_compileGroups {ls : List Lexeme} {leaves out : List (Token C)}
    (hl : List.Forall₂ (Single schema) ls leaves)
    (h : (compileGroups leaves).result = .ok out) : Reads schema .primary out ls := by
  induction leaves using groups_induction generalizing ls out with
  | nil =>
    obtain rfl := List.forall₂_nil_right_iff.1 hl
    rw [compileGroups_nil_result] at h
    cases h
    exact .nil
  | group t rest n hn ihinside ihbehind =>
    obtain ⟨l, ls, ht, hrest, rfl⟩ := List.forall₂_cons_right_iff.1 hl
    obtain ⟨groups, value, others, hg, hv, ho, rfl⟩ := (compileGroups_group_iff hn).1 h
    obtain ⟨u, hu, hres, rfl⟩ := (condense_ok_iff _ _ _).1 hv
    have hin := ihinside (List.forall₂_take (n + 1) hrest) hg
    have hout := ihbehind (List.forall₂_drop (n + 1) hrest) ho
    obtain ⟨inside, closer, back, rfl, hlen, _, _, hc, _⟩ := groupLength_eq_some_iff.1 hn
    rw [List.drop_left' hlen] at ho
    obtain ⟨others, rfl⟩ := compileGroups_head ho
    have hvalue := (Reduction.reads_pipeline hin hu hres).rename (Token.sourceText inside)
    have hjoin := Reads.inner hvalue hc hout
    rw [List.take_append_drop] at hjoin
    rw [List.take_left' hlen]
    exact .cons_single ht hjoin
  | single t rest hn ih =>
    obtain ⟨l, ls, ht, hrest, rfl⟩ := List.forall₂_cons_right_iff.1 hl
    obtain ⟨others, ho, rfl⟩ := (compileGroups_single_iff hn).1 h
    exact .cons_single ht (ih hrest ho)

theorem derives_of_parse {source : String} {e : Expr C} (h : parse schema source = .ok e) :
    ∃ t, Derives schema .disjunction t (Lexeme.ofSource source) ∧ e.shape = t.shape schema := by
  obtain ⟨_, leaves, groups, u, f, hl, hg, hu, hres, hf, rfl⟩ := (parse_ok_iff _ _ _).1 h
  have hspelled : ∀ l ∈ Lexeme.ofSource source, l.Spelled :=
    fun l hmem => Lexeme.spelled_of_mem_cut hmem
  have hsingle : List.Forall₂ (Single schema) (Lexeme.ofSource source) leaves :=
    ((List.forall₂_and_left _ _).2 ⟨hspelled, hl⟩).imp fun l t hlt => single_of_leaf? hlt.1 hlt.2
  obtain ⟨f', t, hf', _, hsh, hd⟩ :=
    Reduction.reads_pipeline (reads_compileGroups hsingle hg) hu hres
  obtain rfl : f = f' := by simpa [hf] using hf'
  exact ⟨t, hd, hsh⟩

end EventCuts
